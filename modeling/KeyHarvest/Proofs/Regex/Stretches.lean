import KeyHarvest.Proofs.Regex.Onward
import KeyHarvest.Proofs.Text.Folding

/-!
# Literals and runs of a class

A literal matches the texts equal to it up to case (`ends_literal_of_alike`,
`ends_literal_eq_nil`), and a repeated class any stretch of its characters, the longest first
(`ends_star_set_cons`, `mem_ends_star_set_iff`). That a text can be matched piece by piece is put
together from `Reads`.

An expression misses a stretch of a text if it matches at no place in it (`Misses`). Behind a greedy
run of a class such stretches do not matter (`ends_behindRun_of_misses`), so an expression behind a
run is found at its last place within the run (`head?_ends_behindRun`).
-/

namespace KeyHarvest

namespace CharClass

/-- The characters listed are those of the list. -/
theorem mem_ofList_iff (cs : List Char) (c : Char) : (ofList cs).mem c = true ↔ c ∈ cs := by
  induction cs with
  | nil => simp [ofList, unions, mem]
  | cons d cs ih =>
    have hcons : ofList (d :: cs) = .union (.single d) (.ofList cs) := rfl
    rw [hcons, mem, mem, Bool.or_eq_true, ih, beq_iff_eq, List.mem_cons]

/-- The other characters are those not in the list. -/
theorem mem_compl_ofList_iff (cs : List Char) (c : Char) :
    (compl (.ofList cs)).mem c = true ↔ c ∉ cs := by
  rw [mem, Bool.not_eq_true', ← Bool.not_eq_true, mem_ofList_iff]

/-- Characters without case are closed under case. -/
theorem mem_folded_ofList_iff {cs : List Char} (h : ∀ c ∈ cs, Text.Caseless c) (c : Char) :
    (folded (.ofList cs)).mem c = true ↔ c ∈ cs := by
  rw [mem, List.any_eq_true]
  constructor
  · rintro ⟨d, horbit, hd⟩
    rw [mem_ofList_iff] at hd
    rwa [(Text.mem_orbit_iff (h d hd) c).mp horbit]
  · intro hc
    exact ⟨c, (Text.mem_orbit_iff (h c hc) c).mpr rfl, (mem_ofList_iff cs c).mpr hc⟩

end CharClass

namespace Regex

open MatchState (between)
open Text (Alike)

/-- A sequence ends where its second part does from the ends of the first. -/
theorem ends_seq (a b : Regex) (s : MatchState) :
    (Regex.seq a b).ends s = (a.ends s).flatMap b.ends := rfl

/-- A choice ends where its parts do, the first ones preferred. -/
theorem ends_alt (a b : Regex) (s : MatchState) :
    (Regex.alt a b).ends s = a.ends s ++ b.ends s := rfl

/-- A sequence ends where the others do from the ends of its first member. -/
theorem ends_concat_cons (r : Regex) (rs : List Regex) (s : MatchState) :
    (concat (r :: rs)).ends s = (r.ends s).flatMap (concat rs).ends := by
  cases rs with
  | nil =>
    have hnil : (concat []).ends = fun t ↦ [t] := rfl
    rw [hnil, List.flatMap_singleton']
    rfl
  | cons r' rs => rfl

/-- Where the first member has one end, the sequence goes on from there. -/
theorem ends_concat_of_singleton {r : Regex} {s t : MatchState} (h : r.ends s = [t])
    (rs : List Regex) : (concat (r :: rs)).ends s = (concat rs).ends t := by
  rw [ends_concat_cons, h, List.flatMap_singleton]

/-- Where the first member has no end, the sequence has none. -/
theorem ends_concat_of_nil {r : Regex} {s : MatchState} (h : r.ends s = []) (rs : List Regex) :
    (concat (r :: rs)).ends s = [] := by
  rw [ends_concat_cons, h, List.flatMap_nil]

variable {done rest : List Char} {captures : List Capture}

/-- A class takes the next character if it holds it. -/
@[simp] theorem ends_set_cons (p : CharClass) (c : Char) :
    (Regex.set p).ends (between done (c :: rest) captures) =
      if p.mem c then [between (done ++ [c]) rest captures] else [] := by
  have hlast : (done ++ [c]).getLast? = some c := by simp
  have hlength : (done ++ [c]).length = done.length + 1 := by simp
  rw [MatchState.between, Cursor.between, MatchState.between, Cursor.between, hlast, hlength]
  rfl

/-! ### Literals -/

/-- A literal takes its first character and then the others. -/
theorem ends_literal_cons (c : Char) (cs : List Char) (s : MatchState) :
    (literal (c :: cs)).ends s = ((Regex.set (.like c)).ends s).flatMap (literal cs).ends :=
  ends_concat_cons _ _ s

/-- Up to case a literal matches its own text. -/
theorem ends_literal_of_alike {cs w : List Char} (h : Alike w cs) :
    (literal cs).ends (between done (w ++ rest) captures) =
      [between (done ++ w) rest captures] := by
  induction cs generalizing w done with
  | nil =>
    rw [List.length_eq_zero_iff.mp h.length_eq, List.append_nil]
    rfl
  | cons c cs ih =>
    obtain ⟨x, w, rfl⟩ := List.exists_cons_of_length_eq_add_one h.length_eq
    obtain ⟨hx, hw⟩ := (Text.alike_cons_iff x c w cs).mp h
    have hmem : (CharClass.like c).mem x = true := hx
    rw [ends_literal_cons, List.cons_append, ends_set_cons, if_pos hmem, List.flatMap_singleton,
      ih hw, List.append_assoc, List.singleton_append]

/-- A literal does not match where the text goes on otherwise. -/
theorem ends_literal_eq_nil {cs : List Char} (h : ∀ w left, rest = w ++ left → ¬ Alike w cs) :
    (literal cs).ends (between done rest captures) = [] := by
  induction cs generalizing done rest with
  | nil => exact absurd (Alike.refl []) (h [] rest rfl)
  | cons c cs ih =>
    rw [ends_literal_cons]
    cases rest with
    | nil => rfl
    | cons x rest =>
      rw [ends_set_cons]
      split
      · next hx =>
        rw [List.flatMap_singleton]
        apply ih
        intro w left hrest hw
        exact h (x :: w) left (by rw [hrest, List.cons_append])
          ((Text.alike_cons_iff x c w cs).mpr ⟨hx, hw⟩)
      · rfl

/-- A literal ends behind what is like its text. -/
theorem mem_ends_literal_iff (cs : List Char) (t : MatchState) :
    t ∈ (literal cs).ends (between done rest captures) ↔
      ∃ w left, rest = w ++ left ∧ Alike w cs ∧ t = between (done ++ w) left captures := by
  constructor
  · intro ht
    by_cases h : ∀ w left, rest = w ++ left → ¬ Alike w cs
    · rw [ends_literal_eq_nil h] at ht
      cases ht
    · simp only [not_forall, Decidable.not_not] at h
      obtain ⟨w, left, rfl, hw⟩ := h
      rw [ends_literal_of_alike hw] at ht
      exact ⟨w, left, rfl, hw, List.mem_singleton.mp ht⟩
  · rintro ⟨w, left, rfl, hw, rfl⟩
    rw [ends_literal_of_alike hw]
    exact List.mem_singleton_self _

/-- The expressions behind one that ends behind certain stretches go on from each of them. -/
private theorem mem_ends_concat_cons_iff {r : Regex} {P : List Char → Prop}
    {made : List Char → List Capture}
    (h : ∀ u, u ∈ r.ends (between done rest captures) ↔
      ∃ w left, rest = w ++ left ∧ P w ∧ u = between (done ++ w) left (made w))
    (rs : List Regex) (t : MatchState) :
    t ∈ (concat (r :: rs)).ends (between done rest captures) ↔
      ∃ w left, rest = w ++ left ∧ P w ∧
        t ∈ (concat rs).ends (between (done ++ w) left (made w)) := by
  rw [ends_concat_cons, List.mem_flatMap]
  constructor
  · rintro ⟨u, hu, ht⟩
    obtain ⟨w, left, hrest, hw, rfl⟩ := (h u).mp hu
    exact ⟨w, left, hrest, hw, ht⟩
  · rintro ⟨w, left, hrest, hw, ht⟩
    exact ⟨_, (h _).mpr ⟨w, left, hrest, hw, rfl⟩, ht⟩

/-- A sequence that begins with a literal goes on behind what is like its text. -/
theorem mem_ends_concat_literal_iff (cs : List Char) (rs : List Regex) (t : MatchState) :
    t ∈ (concat (literal cs :: rs)).ends (between done rest captures) ↔
      ∃ w left, rest = w ++ left ∧ Alike w cs ∧
        t ∈ (concat rs).ends (between (done ++ w) left captures) :=
  mem_ends_concat_cons_iff (mem_ends_literal_iff cs) rs t

/-- A literal with text consumes. -/
theorem consuming_literal {cs : List Char} (h : cs ≠ []) : (literal cs).Consuming := by
  cases cs with
  | nil => exact absurd rfl h
  | cons c cs =>
    intro s t ht
    rw [ends_literal_cons] at ht
    exact (consuming_set _).seq_left (literal cs) s t ht

/-- A sequence consumes if its first member does. -/
theorem Consuming.concat {r : Regex} (h : r.Consuming) (rs : List Regex) :
    (concat (r :: rs)).Consuming := by
  intro s t ht
  rw [ends_concat_cons] at ht
  exact h.seq_left (Regex.concat rs) s t ht

/-! ### Runs of a class -/

/-- Repeated characters take nothing at the end of a text. -/
theorem ends_star_set_nil (p : CharClass) :
    (star true (.set p)).ends (between done [] captures) = [between done [] captures] := by
  rw [ends_star (consuming_set p)]
  rfl

/-- A run prefers to go on. -/
theorem ends_star_set_cons {p : CharClass} {c : Char} (h : p.mem c = true) :
    (star true (.set p)).ends (between done (c :: rest) captures) =
      (star true (.set p)).ends (between (done ++ [c]) rest captures) ++
        [between done (c :: rest) captures] := by
  rw [ends_star (consuming_set p), ends_set_cons, if_pos h, List.flatMap_singleton]

/-- Repeated characters take nothing before another character. -/
theorem ends_star_set_of_not {p : CharClass} {c : Char} (h : p.mem c = false) :
    (star true (.set p)).ends (between done (c :: rest) captures) =
      [between done (c :: rest) captures] := by
  rw [ends_star (consuming_set p), ends_set_cons, h]
  rfl

/-- A run of a class can end behind any stretch of its characters. -/
theorem mem_ends_star_set_iff (p : CharClass) (t : MatchState) :
    t ∈ (star true (.set p)).ends (between done rest captures) ↔
      ∃ w left, rest = w ++ left ∧ (∀ c ∈ w, p.mem c = true) ∧
        t = between (done ++ w) left captures := by
  induction rest generalizing done with
  | nil =>
    rw [ends_star_set_nil, List.mem_singleton]
    constructor
    · rintro rfl
      exact ⟨[], [], rfl, by simp, by simp⟩
    · rintro ⟨w, left, hw, -, rfl⟩
      obtain ⟨rfl, rfl⟩ := List.nil_eq_append_iff.mp hw
      simp
  | cons c rest ih =>
    by_cases hc : p.mem c = true
    · rw [ends_star_set_cons hc, List.mem_append, List.mem_singleton, ih]
      constructor
      · rintro (⟨w, left, rfl, hw, rfl⟩ | rfl)
        · exact ⟨c :: w, left, rfl, List.forall_mem_cons.mpr ⟨hc, hw⟩, by simp⟩
        · exact ⟨[], c :: rest, rfl, by simp, by simp⟩
      · rintro ⟨w, left, hrest, hw, rfl⟩
        cases w with
        | nil =>
          right
          rw [List.append_nil, hrest, List.nil_append]
        | cons d w =>
          obtain ⟨rfl, rfl⟩ := List.cons.inj hrest
          exact .inl ⟨w, left, rfl, (List.forall_mem_cons.mp hw).2, by simp⟩
    · rw [ends_star_set_of_not (by simpa using hc), List.mem_singleton]
      constructor
      · rintro rfl
        exact ⟨[], c :: rest, rfl, by simp, by simp⟩
      · rintro ⟨w, left, hrest, hw, rfl⟩
        cases w with
        | nil => rw [List.append_nil, hrest, List.nil_append]
        | cons d w =>
          obtain ⟨rfl, -⟩ := List.cons.inj hrest
          exact absurd (hw c List.mem_cons_self) hc

/-- A sequence that begins with repeated characters goes on behind any number of them. -/
theorem mem_ends_concat_star_set_iff (p : CharClass) (rs : List Regex) (t : MatchState) :
    t ∈ (concat (star true (.set p) :: rs)).ends (between done rest captures) ↔
      ∃ w left, rest = w ++ left ∧ (∀ c ∈ w, p.mem c = true) ∧
        t ∈ (concat rs).ends (between (done ++ w) left captures) :=
  mem_ends_concat_cons_iff (mem_ends_star_set_iff p) rs t

private theorem mem_ends_group_star_set_iff (i : Nat) (p : CharClass) (t : MatchState) :
    t ∈ (Regex.group i (star true (.set p))).ends (between done rest captures) ↔
      ∃ w left, rest = w ++ left ∧ (∀ c ∈ w, p.mem c = true) ∧
        t = between (done ++ w) left (⟨i, rest, w.length⟩ :: captures) := by
  have hlength (w : List Char) : (done ++ w).length - done.length = w.length := by
    rw [List.length_append, Nat.add_sub_cancel_left]
  constructor
  · intro ht
    obtain ⟨v, hv, rfl⟩ := List.mem_map.mp ht
    obtain ⟨w, left, hrest, hw, rfl⟩ := (mem_ends_star_set_iff p v).mp hv
    refine ⟨w, left, hrest, hw, ?_⟩
    rw [← hlength w]
    rfl
  · rintro ⟨w, left, hrest, hw, rfl⟩
    refine List.mem_map.mpr
      ⟨_, (mem_ends_star_set_iff p _).mpr ⟨w, left, hrest, hw, rfl⟩, ?_⟩
    rw [← hlength w]
    rfl

/-- The same where the run is captured. -/
theorem mem_ends_concat_group_star_set_iff (i : Nat) (p : CharClass) (rs : List Regex)
    (t : MatchState) :
    t ∈ (concat (.group i (star true (.set p)) :: rs)).ends (between done rest captures) ↔
      ∃ w left, rest = w ++ left ∧ (∀ c ∈ w, p.mem c = true) ∧
        t ∈ (concat rs).ends (between (done ++ w) left (⟨i, rest, w.length⟩ :: captures)) :=
  mem_ends_concat_cons_iff (mem_ends_group_star_set_iff i p) rs t

/-! ### Texts that can be matched -/

/-- The expression can match the text `w` where `rest` follows. -/
def Reads (r : Regex) (w rest : List Char) : Prop :=
  ∀ done captures, ∃ captures',
    between (done ++ w) rest captures' ∈ r.ends (between done (w ++ rest) captures)

/-- A literal reads its own text. -/
theorem reads_literal (cs rest : List Char) : (literal cs).Reads cs rest := by
  intro done captures
  rw [ends_literal_of_alike (.refl cs)]
  exact ⟨captures, List.mem_singleton_self _⟩

/-- Repeated characters of a class read any text of them. -/
theorem reads_star_set {p : CharClass} {w : List Char} (h : ∀ c ∈ w, p.mem c = true)
    (rest : List Char) : (star true (.set p)).Reads w rest :=
  fun _ captures ↦ ⟨captures, (mem_ends_star_set_iff p _).mpr ⟨w, rest, rfl, h, rfl⟩⟩

/-- What is optional can be left out. -/
theorem reads_optional_nil (r : Regex) (rest : List Char) : (optional true r).Reads [] rest := by
  intro done captures
  refine ⟨captures, List.mem_append_right _ ?_⟩
  rw [List.append_nil]
  exact List.mem_singleton_self _

/-- A group reads what its expression reads. -/
theorem Reads.group {r : Regex} {w : List Char} (h : r.Reads w rest) (i : Nat) :
    (Regex.group i r).Reads w rest := by
  intro done captures
  obtain ⟨captures', hm⟩ := h done captures
  exact ⟨_, List.mem_map.mpr ⟨_, hm, rfl⟩⟩

/-- The empty sequence reads the empty text. -/
theorem reads_concat_nil (rest : List Char) : (concat []).Reads [] rest := by
  intro done captures
  rw [List.append_nil]
  exact ⟨captures, List.mem_singleton_self _⟩

/-- A sequence reads what its members read one after the other. -/
theorem Reads.concat {r : Regex} {rs : List Regex} {w w' : List Char} (h : r.Reads w (w' ++ rest))
    (h' : (Regex.concat rs).Reads w' rest) : (Regex.concat (r :: rs)).Reads (w ++ w') rest := by
  intro done captures
  obtain ⟨captures', hm⟩ := h done captures
  obtain ⟨captures'', hm'⟩ := h' (done ++ w) captures'
  refine ⟨captures'', ?_⟩
  rw [ends_concat_cons, List.append_assoc w w' rest, ← List.append_assoc done w w']
  exact List.mem_flatMap.mpr ⟨_, hm, hm'⟩

/-! ### Stretches without a match -/

/-- The expression matches at no place in the stretch `w`, which stands between `done` and
`rest`. -/
def Misses (r : Regex) (done w rest : List Char) : Prop :=
  ∀ a b, w = a ++ b → b ≠ [] →
    ∀ captures, r.ends (between (done ++ a) (b ++ rest) captures) = []

variable {r : Regex} {w : List Char}

/-- What is missed has no end at its first character. -/
theorem Misses.head {c : Char} (h : r.Misses done (c :: w) rest) (captures : List Capture) :
    r.ends (between done (c :: (w ++ rest)) captures) = [] := by
  have := h [] (c :: w) rfl (List.cons_ne_nil _ _) captures
  rwa [List.append_nil] at this

/-- What is missed is missed behind its first character. -/
theorem Misses.tail {c : Char} (h : r.Misses done (c :: w) rest) :
    r.Misses (done ++ [c]) w rest := by
  intro a b hw hb captures
  have := h (c :: a) b (by rw [hw, List.cons_append]) hb captures
  rwa [List.append_assoc, List.singleton_append]

/-- A literal that begins with a character without case misses a stretch without this character. -/
theorem misses_literal {c : Char} (hc : Text.Caseless c) (cs : List Char) (hw : c ∉ w) :
    (literal (c :: cs)).Misses done w rest := by
  intro a b hab hb captures
  apply ends_literal_eq_nil
  intro u left hu halike
  obtain ⟨x, u, rfl⟩ := List.exists_cons_of_length_eq_add_one halike.length_eq
  obtain ⟨y, b, rfl⟩ := List.exists_cons_of_ne_nil hb
  have hx := (Text.sameFold_iff_eq hc x).mp ((Text.alike_cons_iff x c u cs).mp halike).1
  rw [List.cons_append, List.cons_append] at hu
  rw [hab, (List.cons.inj hu).1, hx] at hw
  exact hw (List.mem_append_right a List.mem_cons_self)

/-- An expression misses two stretches in a row if it misses both. -/
theorem Misses.append {w' : List Char} (h : r.Misses done w (w' ++ rest))
    (h' : r.Misses (done ++ w) w' rest) : r.Misses done (w ++ w') rest := by
  intro a b hab hb captures
  rcases List.append_eq_append_iff.mp hab with ⟨a', rfl, hw'⟩ | ⟨b', hw, hb'⟩
  · have := h' a' b hw' hb captures
    rwa [List.append_assoc] at this
  · cases b' with
    | nil =>
      rw [List.nil_append] at hb'
      have := h' [] w' rfl (hb' ▸ hb) captures
      rw [List.append_nil] at hw this
      rwa [hb', ← hw]
    | cons c b' =>
      have := h a (c :: b') hw (List.cons_ne_nil _ _) captures
      rwa [hb', List.append_assoc]

/-- What begins with an expression misses what that expression misses. -/
theorem Misses.concat (h : r.Misses done w rest) (rs : List Regex) :
    (concat (r :: rs)).Misses done w rest :=
  fun a b hw hb captures ↦ ends_concat_of_nil (h a b hw hb captures) rs

/-- A character at which an expression has no end is missed. -/
theorem misses_singleton {c : Char}
    (h : ∀ captures, r.ends (between done (c :: rest) captures) = []) : r.Misses done [c] rest := by
  intro a b hab hb captures
  rcases List.append_eq_singleton_iff.mp hab.symm with ⟨rfl, rfl⟩ | ⟨rfl, rfl⟩
  · rw [List.append_nil]
    exact h captures
  · exact absurd rfl hb

/-- A greedy run of a class and an expression behind it. -/
def behindRun (p : CharClass) (r : Regex) : Regex :=
  .seq (star true (.set p)) r

/-- Behind a run of characters an expression is tried further on first. -/
theorem ends_behindRun_cons {p : CharClass} {c : Char} (h : p.mem c = true) (r : Regex) :
    (behindRun p r).ends (between done (c :: rest) captures) =
      (behindRun p r).ends (between (done ++ [c]) rest captures) ++
        r.ends (between done (c :: rest) captures) := by
  rw [behindRun, ends_seq, ends_star_set_cons h, List.flatMap_append, List.flatMap_singleton,
    ends_seq]

/-- Where an expression is found behind a longer run, it is found there first. -/
theorem head?_ends_behindRun {p : CharClass} (hw : ∀ c ∈ w, p.mem c = true) {t : MatchState}
    (h : ((behindRun p r).ends (between (done ++ w) rest captures)).head? = some t) :
    ((behindRun p r).ends (between done (w ++ rest) captures)).head? = some t := by
  induction w generalizing done with
  | nil => rwa [List.append_nil] at h
  | cons c w ih =>
    rw [List.forall_mem_cons] at hw
    rw [List.cons_append, ends_behindRun_cons hw.1, List.head?_append, ih hw.2, Option.some_or]
    rwa [List.append_assoc, List.singleton_append]

/-- A stretch that the expression misses lets the run go on behind it. -/
theorem ends_behindRun_of_misses {p : CharClass} (hw : ∀ c ∈ w, p.mem c = true)
    (h : r.Misses done w rest) :
    (behindRun p r).ends (between done (w ++ rest) captures) =
      (behindRun p r).ends (between (done ++ w) rest captures) := by
  induction w generalizing done with
  | nil => rw [List.append_nil, List.nil_append]
  | cons c w ih =>
    rw [List.forall_mem_cons] at hw
    rw [List.cons_append, ends_behindRun_cons hw.1, h.head, List.append_nil, ih hw.2 h.tail,
      List.append_assoc, List.singleton_append]

/-- A run in front of an expression is passed over if the expression misses it. -/
theorem ends_concat_run {p : CharClass} (hw : ∀ c ∈ w, p.mem c = true)
    (hrest : ∀ c ∈ rest.head?, p.mem c = false) (h : r.Misses done w rest) (rs : List Regex) :
    (concat (star true (.set p) :: r :: rs)).ends (between done (w ++ rest) captures) =
      (concat (r :: rs)).ends (between (done ++ w) rest captures) := by
  have hrun : concat (star true (.set p) :: r :: rs) = behindRun p (concat (r :: rs)) := rfl
  have hstop : (star true (.set p)).ends (between (done ++ w) rest captures) =
      [between (done ++ w) rest captures] := by
    cases rest with
    | nil => exact ends_star_set_nil p
    | cons c rest => exact ends_star_set_of_not (hrest c rfl)
  rw [hrun, ends_behindRun_of_misses hw (h.concat rs), behindRun, ends_seq, hstop,
    List.flatMap_singleton]

/-- Behind a run there is no match if there is none in a stretch and none behind a run after it. -/
theorem ends_behindRun_eq_nil {p : CharClass} (h : r.Misses done w rest)
    (hrest : (behindRun p r).ends (between (done ++ w) rest captures) = []) :
    (behindRun p r).ends (between done (w ++ rest) captures) = [] := by
  induction w generalizing done with
  | nil => rwa [List.append_nil] at hrest
  | cons c w ih =>
    rw [List.cons_append]
    by_cases hc : p.mem c = true
    · rw [ends_behindRun_cons hc, h.head, List.append_nil]
      exact ih h.tail (by rwa [List.append_assoc, List.singleton_append])
    · rw [behindRun, ends_seq, ends_star_set_of_not (by simpa using hc), List.flatMap_singleton]
      exact h.head captures

end Regex

end KeyHarvest
