import KeyHarvest.Proofs.Regex.Reading
import KeyHarvest.Proofs.Regex.Stretches

/-!
# Texts that write an expression

A text writes an expression if wherever it stands the reader takes it for parts that together have
the ends of the expression (`Writes`). Texts one after the other write the expressions one after the
other (`Writes.cons`), and a text that is read as one part (`WritesPart`) can be repeated, left
out, or put into a group, whose number is that of the groups opened so far.

Main statement: a text that writes an expression is read to one with the same ends
(`Writes.exists_parse?`).
-/

namespace KeyHarvest.Regex

open Reader

/-! ### Expressions with the same ends -/

private theorem ends_concat_append (rs rs' : List Regex) (s : MatchState) :
    (concat (rs ++ rs')).ends s = ((concat rs).ends s).flatMap (concat rs').ends := by
  induction rs generalizing s with
  | nil => exact (List.flatMap_singleton _ _).symm
  | cons r rs ih =>
    have ih : (concat (rs ++ rs')).ends = fun s ↦ ((concat rs).ends s).flatMap (concat rs').ends :=
      funext ih
    rw [List.cons_append, ends_concat_cons, ends_concat_cons, List.flatMap_assoc, ih]

section Congruence

variable {r r' : Regex} (h : r.ends = r'.ends)
include h

private theorem ends_star_congr (greedy : Bool) : (star greedy r).ends = (star greedy r').ends := by
  funext s
  cases greedy <;> simp only [star, optional, ends, h, if_true, if_false, Bool.false_eq_true]

private theorem ends_optional_congr (greedy : Bool) :
    (optional greedy r).ends = (optional greedy r').ends := by
  funext s
  cases greedy <;> simp only [optional, ends, h, if_true, if_false, Bool.false_eq_true]

private theorem ends_group_congr (i : Nat) : (group i r).ends = (group i r').ends := by
  funext s
  simp only [ends, h]

/-- The matches in a text depend on the ends only. -/
theorem allMatches_congr (text : List Char) : r.allMatches text = r'.allMatches text := by
  have hfresh : r.freshMatch = r'.freshMatch := by
    funext last c
    rw [freshMatch, freshMatch, matchAt_eq_head?, matchAt_eq_head?, h]
  suffices ∀ last before position,
      r.matchesFrom last before position text = r'.matchesFrom last before position text from
    this none none 0
  induction text with
  | nil =>
    intro last before position
    rw [matchesFrom, matchesFrom, hfresh]
  | cons c text ih =>
    intro last before position
    rw [matchesFrom, matchesFrom, hfresh]
    simp only [ih]

end Congruence

/-! ### What texts write -/

/-- An expression with its depth as a part of a sequence. -/
def toPart (x : Nested Regex) : Part :=
  ⟨some x.item, x.depth⟩

/-- Where a text stands, the reader adds parts and opens groups. -/
def Adds (source : List Char) (added : List (Nested Regex)) (g g' : Nat) : Prop :=
  ∀ {engine : Engine} {finished : List (Nested Regex)} {parts : List Part} {rest : List Char}
    {out : Nested Regex × Progress}, rest.head? ≠ some '?' →
      Yields engine finished ((added.map toPart).reverse ++ parts) g' rest out →
      Yields engine finished parts g (source ++ rest) out

/-- The text is read to parts that have the ends of the expression together, each of them nested at
most `d` deep, and the number of groups goes from `g` to `g'`. A question mark would change the
operator before the text. -/
def Writes (source : List Char) (r : Regex) (d g g' : Nat) : Prop :=
  source.head? ≠ some '?' ∧ ∃ added, Adds source added g g' ∧
    (concat (added.map Nested.item)).ends = r.ends ∧ ∀ x ∈ added, x.depth ≤ d

/-- The text is read to one part, whatever follows. -/
def WritesPart (source : List Char) (r : Regex) (d g g' : Nat) : Prop :=
  (∃ c cs, source = c :: cs ∧ c ≠ '?') ∧ ∃ x : Nested Regex, x.item.ends = r.ends ∧ x.depth ≤ d ∧
    ∀ {engine finished parts rest out}, Yields engine finished (toPart x :: parts) g' rest out →
      Yields engine finished parts g (source ++ rest) out

section Laws

variable {source source' : List Char} {r r' : Regex} {rs rs' : List Regex} {d d' g g' g'' : Nat}

private theorem head?_append_ne {c : Char} {a b : List Char} (ha : a.head? ≠ some c)
    (hb : b.head? ≠ some c) : (a ++ b).head? ≠ some c := by
  cases a with
  | nil => exact hb
  | cons _ _ => exact ha

/-- What is written at some depth is so at a greater one. -/
theorem Writes.mono (h : Writes source r d g g') (hd : d ≤ d') : Writes source r d' g g' := by
  obtain ⟨hhead, added, hadds, hends, hdepth⟩ := h
  exact ⟨hhead, added, hadds, hends, fun x hx ↦ Nat.le_trans (hdepth x hx) hd⟩

private theorem writes_nil (g : Nat) : Writes [] (concat []) d g g := by
  refine ⟨by simp, [], ?_, rfl, by simp⟩
  intro engine finished parts rest out _ h
  exact h

/-- Sequences one after the other. -/
theorem Writes.append (h : Writes source (concat rs) d g g')
    (h' : Writes source' (concat rs') d g' g'') :
    Writes (source ++ source') (concat (rs ++ rs')) d g g'' := by
  obtain ⟨hhead, added, hadds, hends, hdepth⟩ := h
  obtain ⟨hhead', added', hadds', hends', hdepth'⟩ := h'
  refine ⟨head?_append_ne hhead hhead', added ++ added', ?_, ?_,
    List.forall_mem_append.mpr ⟨hdepth, hdepth'⟩⟩
  · intro engine finished parts rest out hrest h
    rw [List.append_assoc]
    refine hadds (head?_append_ne hhead' hrest) (hadds' hrest ?_)
    rwa [List.map_append, List.reverse_append, List.append_assoc] at h
  · funext s
    rw [List.map_append, ends_concat_append, ends_concat_append, hends, hends']

/-- A text that writes an expression writes the sequence of it alone. -/
theorem Writes.last (h : Writes source r d g g') : Writes source (concat [r]) d g g' := h

/-- Two texts one after the other write a sequence. -/
theorem Writes.cons (h : Writes source r d g g') (h' : Writes source' (concat rs) d g' g'') :
    Writes (source ++ source') (concat (r :: rs)) d g g'' :=
  h.last.append h'

/-- A text that is read to one part writes its expression. -/
theorem WritesPart.writes (h : WritesPart source r d g g') : Writes source r d g g' := by
  obtain ⟨⟨c, cs, rfl, hc⟩, x, hends, hdepth, hreads⟩ := h
  refine ⟨by simpa using hc, [x], ?_, hends, by simpa using hdepth⟩
  intro engine finished parts rest out _ h
  exact hreads h

/-! ### Single characters and classes -/

/-- A plain character writes itself, up to case. -/
theorem writesPart_char {c : Char} (hc : IsPlain c) (g : Nat) :
    WritesPart [c] (.set (.like c)) 0 g g :=
  ⟨⟨c, [], rfl, by rintro rfl; exact absurd hc (by decide)⟩, { item := .set (.like c) }, rfl,
    Nat.le_refl _, fun h ↦ h.char hc⟩

/-- A character behind a backslash writes itself, up to case. -/
theorem writesPart_escaped {c : Char} (hc : standsForItself c = true) (g : Nat) :
    WritesPart ['\\', c] (.set (.like c)) 0 g g :=
  ⟨⟨'\\', [c], rfl, by decide⟩, { item := .set (.like c) }, rfl, Nat.le_refl _,
    fun h ↦ h.escaped hc⟩

/-- How blanks are written. -/
theorem writesPart_blank (g : Nat) : WritesPart ['\\', 's'] (.set .blank) 0 g g :=
  ⟨⟨'\\', ['s'], rfl, by decide⟩, { item := .set .blank }, rfl, Nat.le_refl _, Yields.blank⟩

/-- How the characters within a line are written. -/
theorem writesPart_inLine (g : Nat) : WritesPart ['.'] (.set (.compl (.single '\n'))) 0 g g :=
  ⟨⟨'.', [], rfl, by decide⟩, { item := .set (.compl (.single '\n')) }, rfl, Nat.le_refl _,
    Yields.inLine⟩

/-- A literal, of which each character is written as it is or behind a backslash. -/
theorem writes_literal {write : Char → List Char} {cs : List Char}
    (h : ∀ c ∈ cs, write c = [c] ∧ IsPlain c ∨ write c = ['\\', c] ∧ standsForItself c = true)
    (g : Nat) : Writes (cs.flatMap write) (literal cs) 0 g g := by
  induction cs with
  | nil => exact writes_nil g
  | cons c cs ih =>
    obtain ⟨hc, hcs⟩ := List.forall_mem_cons.mp h
    have hwrite : Writes (write c) (.set (.like c)) 0 g g := by
      rcases hc with ⟨hwrite, hc⟩ | ⟨hwrite, hc⟩
      · rw [hwrite]
        exact (writesPart_char hc g).writes
      · rw [hwrite]
        exact (writesPart_escaped hc g).writes
    rw [List.flatMap_cons]
    exact hwrite.cons (ih hcs)

private theorem ends_set_congr {p q : CharClass} (h : ∀ c, p.mem c = q.mem c) :
    (Regex.set p).ends = (Regex.set q).ends := by
  funext s
  simp only [ends, h]

/-- The characters outside a list of characters without case. -/
theorem writesPart_noneOf {cs : List Char} (hcs : ∀ c ∈ cs, InClass c)
    (hcase : ∀ c ∈ cs, Text.Caseless c) (hne : cs ≠ []) (g : Nat) :
    WritesPart ('[' :: '^' :: (cs.flatMap classText ++ [']'])) (.set (.compl (.ofList cs))) 2
      g g := by
  refine ⟨⟨'[', _, rfl, by decide⟩,
    ⟨.set (.compl (.folded (.ofList cs))), (listed cs).depth + 1⟩, ends_set_congr fun c ↦ ?_,
    Nat.succ_le_succ (depth_listed_le cs), ?_⟩
  · rw [CharClass.mem, CharClass.mem, Bool.eq_iff_iff.mpr
      ((CharClass.mem_folded_ofList_iff hcase c).trans (CharClass.mem_ofList_iff cs c).symm)]
  · intro engine finished parts rest out h
    rw [List.cons_append, List.cons_append, List.append_assoc]
    exact Yields.noneOf hcs hne h

/-! ### Operators and groups -/

/-- A star behind a part writes its repetition. -/
theorem WritesPart.star (h : WritesPart source r d g g') :
    Writes (source ++ ['*']) (Regex.star true r) (d + 1) g g' := by
  obtain ⟨⟨c, cs, rfl, hc⟩, x, hends, hdepth, hreads⟩ := h
  refine ⟨by simpa using hc, [⟨.star true x.item, x.depth + 1⟩], ?_, ends_star_congr hends true, ?_⟩
  · intro engine finished parts rest out hrest h
    rw [List.append_assoc]
    exact hreads (Yields.star h hrest)
  · simpa using hdepth

/-- A star and a question mark behind a part write its lazy repetition. -/
theorem WritesPart.lazyStar (h : WritesPart source r d g g') :
    Writes (source ++ ['*', '?']) (Regex.star false r) (d + 1) g g' := by
  obtain ⟨⟨c, cs, rfl, hc⟩, x, hends, hdepth, hreads⟩ := h
  refine ⟨by simpa using hc, [⟨.star false x.item, x.depth + 1⟩], ?_,
    ends_star_congr hends false, ?_⟩
  · intro engine finished parts rest out _ h
    rw [List.append_assoc]
    exact hreads (Yields.lazyStar h)
  · simpa using hdepth

/-- A question mark behind a part makes it optional. -/
theorem WritesPart.optional (h : WritesPart source r d g g') :
    Writes (source ++ ['?']) (Regex.optional true r) (d + 1) g g' := by
  obtain ⟨⟨c, cs, rfl, hc⟩, x, hends, hdepth, hreads⟩ := h
  refine ⟨by simpa using hc, [⟨.optional true x.item, x.depth + 1⟩], ?_,
    ends_optional_congr hends true, ?_⟩
  · intro engine finished parts rest out hrest h
    rw [List.append_assoc]
    exact hreads (Yields.optional h hrest)
  · simpa using hdepth

private theorem item_sequence (added : List (Nested Regex)) :
    (Reader.sequence ((added.map toPart).reverse ++ [])).item = concat (added.map Nested.item) := by
  rw [List.append_nil, Reader.sequence, List.reverse_reverse, Nested.join]
  dsimp only
  rw [List.map_map, List.filterMap_map]
  exact congrArg concat (congrFun List.filterMap_eq_map' added)

private theorem depth_sequence_le {added : List (Nested Regex)} (h : ∀ x ∈ added, x.depth ≤ d) :
    (Reader.sequence ((added.map toPart).reverse ++ [])).depth ≤ d + 1 := by
  rw [List.append_nil, Reader.sequence, List.reverse_reverse]
  apply Nested.depth_join_le
  intro part hpart
  obtain ⟨x, hx, rfl⟩ := List.mem_map.mp hpart
  exact h x hx

/-- Parentheses write a group of what is between them. -/
theorem Writes.group (h : Writes source r d (g + 1) g') :
    WritesPart ('(' :: (source ++ [')'])) (Regex.group (g + 1) r) (d + 3) g g' := by
  obtain ⟨hhead, added, hadds, hends, hdepth⟩ := h
  let body := result [] ((added.map toPart).reverse ++ [])
  have hitem : body.item = concat (added.map Nested.item) := item_sequence added
  have hbody : body.depth ≤ d + 2 :=
    Nested.depth_join_le _ (List.forall_mem_singleton.mpr (depth_sequence_le hdepth))
  refine ⟨⟨'(', _, rfl, by decide⟩, body.wrap (Regex.group (g + 1)), ?_, Nat.succ_le_succ hbody, ?_⟩
  · exact ends_group_congr (hitem ▸ hends) (g + 1)
  · intro engine finished parts rest out h
    rw [List.cons_append, List.append_assoc]
    refine Yields.group (head?_append_ne hhead (by simp)) (hadds (by simp) ?_) h ?_
    · exact yields_close [] _ g' rest
    · rw [List.length_append]
      exact Nat.le_trans (Nat.le_succ _) (Nat.le_add_left _ _)

/-- A bar between two texts in a group without a number writes a choice. -/
theorem Writes.either (h : Writes source r d g g') (h' : Writes source' r' d g' g'') :
    WritesPart ('(' :: '?' :: ':' :: (source ++ '|' :: (source' ++ [')']))) (.alt r r') (d + 3)
      g g'' := by
  obtain ⟨-, added, hadds, hends, hdepth⟩ := h
  obtain ⟨-, added', hadds', hends', hdepth'⟩ := h'
  let first := Reader.sequence ((added.map toPart).reverse ++ [])
  let body := result [first] ((added'.map toPart).reverse ++ [])
  have hitem : body.item =
      .alt (concat (added.map Nested.item)) (concat (added'.map Nested.item)) := by
    rw [← item_sequence, ← item_sequence]
    rfl
  have hbody : body.depth ≤ d + 2 :=
    Nested.depth_join_le _ (List.forall_mem_cons.mpr ⟨depth_sequence_le hdepth,
      List.forall_mem_singleton.mpr (depth_sequence_le hdepth')⟩)
  refine ⟨⟨'(', _, rfl, by decide⟩, body.wrap id, ?_, Nat.succ_le_succ hbody, ?_⟩
  · funext s
    show body.item.ends s = _
    rw [hitem, ends_alt, ends_alt, hends, hends']
  · intro engine finished parts rest out h
    rw [List.cons_append, List.cons_append, List.cons_append, List.append_assoc, List.cons_append,
      List.append_assoc]
    have hclosed : Yields engine [] [] g (source ++ '|' :: (source' ++ ')' :: rest))
        (body, At g'' (')' :: rest)) :=
      hadds (by simp) (Yields.bar (hadds' (by simp) (yields_close [first] _ g'' rest)))
    refine Yields.plainGroup hclosed h ?_
    rw [List.singleton_append, List.length_append, List.length_cons, List.length_append,
      List.length_cons]
    omega

end Laws

/-- Every engine reads a text that writes an expression to one with the same ends. -/
theorem Writes.exists_parse? {source : String} {r : Regex} {d g : Nat}
    (h : Writes source.toList r d 0 g) (hd : d + 2 ≤ maxNesting) (engine : Engine) :
    ∃ r', parse? engine source true = some r' ∧ r'.ends = r.ends := by
  obtain ⟨-, added, hadds, hends, hdepth⟩ := h
  let read := result [] ((added.map toPart).reverse ++ [])
  have hitem : read.item = concat (added.map Nested.item) := item_sequence added
  have hread : read.depth ≤ maxNesting :=
    Nat.le_trans (Nested.depth_join_le _
      (List.forall_mem_singleton.mpr (depth_sequence_le hdepth))) hd
  have hyields : Yields engine [] [] 0 (source.toList ++ []) (read, At g []) :=
    hadds (by simp) (yields_end [] ((added.map toPart).reverse ++ []) g)
  rw [List.append_nil] at hyields
  have hrun : (alternatives engine (2 * source.length + 2) [] []).run
      { rest := source.toList, flags := { ignoreCase := true } } = some (read, At g []) :=
    hyields (2 * source.length + 2) (by rw [String.length_toList]; omega)
  refine ⟨read.item, ?_, hitem ▸ hends⟩
  rw [parse?]
  simp only [hrun]
  simp [hread]

end KeyHarvest.Regex
