import KeyHarvest.Regex.Reader

/-!
# Reading an expression sign by sign

Where case does not count and no other flag is set, the reader takes an expression from the front of
a text to its end or to the closing parenthesis of its group (`Yields`). Each sign has one law: it
is read to a part, changes the part before it, or opens or closes a group.
-/

namespace KeyHarvest.Regex.Reader

/-- The flags of patterns in which case does not count. -/
def caseless : Flags := { ignoreCase := true }

/-- The state of the reader before a text, some groups being opened already. -/
abbrev At (groups : Nat) (cs : List Char) : Progress := ⟨cs, caseless, groups, []⟩

variable {engine : Engine}

/-! ### Single actions -/

section Actions

variable {α β : Type}

private theorem bind_apply (x : Read α) (f : α → Read β) (p : Progress) :
    (x >>= f) p = (x p).bind fun r ↦ f r.1 r.2 := rfl

private theorem pure_apply (a : α) (p : Progress) : (pure a : Read α) p = some (a, p) := rfl

private theorem get_apply (p : Progress) : (get : Read Progress) p = some (p, p) := rfl

private theorem peek?_apply (p : Progress) : peek? p = some (p.rest.head?, p) := rfl

private theorem peek_apply (g : Nat) (c : Char) (cs : List Char) :
    peek (At g (c :: cs)) = some (c, At g (c :: cs)) := rfl

private theorem unread_apply (p : Progress) : unread p = some (p.rest, p) := rfl

private theorem skip_apply (g n : Nat) (cs : List Char) :
    skip n (At g cs) = some ((), At g (cs.drop n)) := rfl

private theorem skipSpace_apply (g : Nat) (cs : List Char) :
    skipSpace (At g cs) = some ((), At g cs) := rfl

private theorem advanceToMore_apply (g : Nat) (c d : Char) (cs : List Char) :
    advanceToMore (At g (c :: d :: cs)) = some ((), At g (d :: cs)) := rfl

private theorem closeCase_apply (g : Nat) (cs : List Char) (s : CharClass) :
    closeCase s (At g cs) = some (.folded s, At g cs) := rfl

private theorem not_isPrefixOf {text cs : List Char} (htext : text.head? = some '?')
    (h : cs.head? ≠ some '?') : text.isPrefixOf cs = false := by
  rw [Bool.eq_false_iff]
  intro hprefix
  obtain ⟨more, rfl⟩ := List.isPrefixOf_iff_prefix.mp hprefix
  exact h (by rw [List.head?_append, htext, Option.some_or])

private theorem skipIf_apply {text : String} {cs : List Char} (htext : text.toList.head? = some '?')
    (h : cs.head? ≠ some '?') (g : Nat) : skipIf text (At g cs) = some (false, At g cs) := by
  rw [skipIf, bind_apply, unread_apply, Option.bind_some, not_isPrefixOf htext h]
  rfl

private theorem greed_apply {cs : List Char} (h : cs.head? ≠ some '?') (g : Nat) :
    greed (At g cs) = some (true, At g cs) := by
  rw [greed, bind_apply, skipIf_apply rfl h]
  rfl

end Actions

/-! ### Depth -/

/-- Parts put together are nested at most one deeper. -/
theorem Nested.depth_join_le {α β : Type} (make : List α → β) {parts : List (Nested α)} {d : Nat}
    (h : ∀ part ∈ parts, part.depth ≤ d) : (Nested.join make parts).depth ≤ d + 1 := by
  have hmax (start : Nat) (hstart : start ≤ d) : (parts.map Nested.depth).foldl max start ≤ d := by
    induction parts generalizing start with
    | nil => exact hstart
    | cons part parts ih =>
      obtain ⟨hpart, hparts⟩ := List.forall_mem_cons.mp h
      exact ih hparts _ (Nat.max_le.mpr ⟨hstart, hpart⟩)
  have := hmax 0 (Nat.zero_le d)
  rw [Nested.join]
  dsimp only
  split <;> omega

/-! ### Bracketed classes -/

/-- A character that stands for itself in a bracketed class, the backslash behind another one. -/
def InClass (c : Char) : Prop :=
  c ∉ ['[', ']', '^', '-', '&', '~']

instance (c : Char) : Decidable (InClass c) :=
  inferInstanceAs (Decidable (¬ _))

/-- A character as it is written in a bracketed class. -/
def classText (c : Char) : List Char :=
  c :: if c = '\\' then ['\\'] else []

/-- Characters listed in a bracketed class. -/
def listed (cs : List Char) : Nested CharClass :=
  .join CharClass.unions (cs.map fun c ↦ { item := .single c })

private theorem item_listed (cs : List Char) : (listed cs).item = .ofList cs :=
  congrArg CharClass.unions List.map_map

/-- Characters listed are nested at most once. -/
theorem depth_listed_le (cs : List Char) : (listed cs).depth ≤ 1 :=
  Nested.depth_join_le _ (by simp)

private theorem length_le_length_classText (cs : List Char) :
    cs.length ≤ (cs.flatMap classText).length := by
  induction cs with
  | nil => exact Nat.le_refl _
  | cons c cs ih =>
    have hc : 1 ≤ (classText c).length := Nat.succ_pos _
    rw [List.flatMap_cons, List.length_append, List.length_cons]
    omega

section Classes

variable {c : Char} {cs : List Char} {g : Nat} {rest : List Char}

/-- What stands for itself in a bracketed class is none of its signs. -/
theorem InClass.ne (h : InClass c) :
    c ≠ '[' ∧ c ≠ ']' ∧ c ≠ '^' ∧ c ≠ '-' ∧ c ≠ '&' ∧ c ≠ '~' := by
  simpa [InClass] using h

private theorem element_apply (c : Char) (g : Nat) (rest : List Char) :
    element engine (At g (classText c ++ rest)) = some (.char c, At g rest) := by
  rw [classText]
  split
  · next hc =>
    rw [hc]
    rfl
  · next hc =>
    rw [List.singleton_append, element, bind_apply, peek_apply, Option.bind_some, if_neg hc]
    rfl

private theorem elementOrRange_apply (c : Char) {d : Char} (hd : d ≠ '-') :
    elementOrRange engine (At g (classText c ++ d :: rest)) =
      some (.single c, At g (d :: rest)) := by
  have hhyphen : ((d :: rest).head? != some '-') = true := by simpa using hd
  rw [elementOrRange, bind_apply, element_apply, Option.bind_some, bind_apply, skipSpace_apply,
    Option.bind_some, bind_apply, peek?_apply, Option.bind_some, bind_apply]
  show (if _ then _ else _ : Read CharClass) _ = _
  simp only [hhyphen, Bool.true_or]
  rfl

private theorem operation?_eq_none (hc : InClass c) (cs : List Char) :
    operation? (classText c ++ cs) = none := by
  obtain ⟨-, -, -, hhyphen, hand, htilde⟩ := hc.ne
  rw [classText, List.cons_append]
  unfold operation?
  split
  · next heq => exact absurd (List.cons.inj heq).1 hand
  · next heq => exact absurd (List.cons.inj heq).1 hhyphen
  · next heq => exact absurd (List.cons.inj heq).1 htilde
  · rfl

/-- What is read up to the closing bracket are the characters written. -/
theorem bracketedItems_apply (hcs : ∀ c ∈ cs, InClass c) (sofar : List (Nested CharClass))
    {fuel : Nat} (hfuel : cs.length < fuel) :
    bracketedItems engine fuel none sofar (At g (cs.flatMap classText ++ ']' :: rest)) =
      some (.join CharClass.unions (sofar.reverse ++ cs.map fun c ↦ { item := .single c }),
        At g rest) := by
  induction cs generalizing sofar fuel with
  | nil =>
    obtain ⟨fuel, rfl⟩ := Nat.exists_eq_add_of_lt hfuel
    rw [List.map_nil, List.append_nil]
    rfl
  | cons c cs ih =>
    obtain ⟨fuel, rfl⟩ := Nat.exists_eq_add_of_lt hfuel
    obtain ⟨hc, hcs⟩ := List.forall_mem_cons.mp hcs
    obtain ⟨hopen, hclose, -⟩ := hc.ne
    obtain ⟨d, more, hmore, hd⟩ : ∃ d more, cs.flatMap classText ++ ']' :: rest = d :: more ∧
        d ≠ '-' := by
      cases cs with
      | nil => exact ⟨']', rest, rfl, by decide⟩
      | cons d cs => exact ⟨d, _, rfl, (hcs d List.mem_cons_self).ne.2.2.2.1⟩
    have hitems : bracketedItems engine ((c :: cs).length + fuel) none
        ({ item := .single c } :: sofar) (At g (d :: more)) = some (.join CharClass.unions
          (sofar.reverse ++ (c :: cs).map fun c ↦ { item := .single c }), At g rest) := by
      rw [← hmore, ih hcs _ (by simp; omega)]
      simp
    rw [List.flatMap_cons, List.append_assoc, hmore, bracketedItems, bind_apply, skipSpace_apply,
      Option.bind_some, bind_apply]
    show (if c = '[' then _ else _ : Read (Nested CharClass)) _ = _
    rw [if_neg hopen, if_neg hclose, bind_apply, unread_apply, Option.bind_some]
    simp only [operation?_eq_none hc]
    rw [bind_apply, elementOrRange_apply c hd, Option.bind_some, hitems]

private theorem leadingHyphens_apply (hc : c ≠ '-') (fuel : Nat) :
    leadingHyphens fuel (At g (c :: rest)) = some ([], At g (c :: rest)) := by
  cases fuel with
  | zero => rfl
  | succ fuel =>
    rw [leadingHyphens, bind_apply, peek_apply, Option.bind_some, if_neg hc]
    rfl

/-- A bracketed class that is negated holds the characters that are not written in it, nor like one
of these up to case. -/
theorem bracketed_apply (hcs : ∀ c ∈ cs, InClass c) (hne : cs ≠ []) {fuel : Nat}
    (hfuel : cs.length < fuel) :
    bracketed engine (fuel + 1) (At g ('[' :: '^' :: (cs.flatMap classText ++ ']' :: rest))) =
      some ((listed cs).wrap fun s ↦ .compl (.folded s), At g rest) := by
  have hitems : bracketedItems engine fuel none [] (At g (cs.flatMap classText ++ ']' :: rest)) =
      some (listed cs, At g rest) := bracketedItems_apply hcs [] hfuel
  obtain ⟨c, cs, rfl⟩ := List.exists_cons_of_ne_nil hne
  obtain ⟨-, hclose, -, hhyphen, -⟩ := (hcs c List.mem_cons_self).ne
  obtain ⟨more, hmore⟩ : ∃ more, (c :: cs).flatMap classText ++ ']' :: rest = c :: more :=
    ⟨_, rfl⟩
  have hclose : (c == ']') = false := beq_false_of_ne hclose
  rw [hmore] at hitems ⊢
  rw [bracketed, bind_apply, advanceToMore_apply, Option.bind_some, bind_apply, peek_apply,
    Option.bind_some]
  simp only [bind_apply, beq_self_eq_true, if_true, advanceToMore_apply, unread_apply,
    leadingHyphens_apply hhyphen, Option.bind_some, peek_apply, List.isEmpty_nil, hclose,
    Bool.and_false, Bool.false_eq_true, if_false, pure_apply, hitems]
  rw [closeCase_apply]
  rfl

private theorem bracketedSet_apply (hcs : ∀ c ∈ cs, InClass c) (hne : cs ≠ []) :
    bracketedSet engine (At g ('[' :: '^' :: (cs.flatMap classText ++ ']' :: rest))) =
      some (⟨.set (.compl (.folded (.ofList cs))), (listed cs).depth + 1⟩, At g rest) := by
  have hlength : cs.length < ('[' :: '^' :: (cs.flatMap classText ++ ']' :: rest)).length := by
    have := length_le_length_classText cs
    rw [List.length_cons, List.length_cons, List.length_append]
    omega
  rw [bracketedSet, bind_apply, unread_apply, Option.bind_some, bind_apply,
    bracketed_apply hcs hne hlength, ← item_listed]
  rfl

end Classes

/-! ### Whole expressions -/

/-- With the alternatives finished and the parts of the present one, both last first, a text is read
to its end or to the end of the group. -/
def Yields (engine : Engine) (finished : List (Nested Regex)) (parts : List Part) (g : Nat)
    (cs : List Char) (out : Nested Regex × Progress) : Prop :=
  ∀ fuel, cs.length < fuel → alternatives engine fuel finished parts (At g cs) = some out

section Yields

variable {finished finished' : List (Nested Regex)} {parts parts' : List Part} {g g' : Nat}
  {c : Char} {cs rest : List Char} {r : Regex} {out : Nested Regex × Progress}

private theorem Yields.of_step (h : Yields engine finished' parts' g' rest out)
    (hlength : rest.length < cs.length)
    (hstep : ∀ fuel, cs.length ≤ fuel → alternatives engine (fuel + 1) finished parts (At g cs) =
      alternatives engine fuel finished' parts' (At g' rest)) :
    Yields engine finished parts g cs out := by
  intro fuel hfuel
  obtain ⟨fuel, rfl⟩ := Nat.exists_eq_succ_of_ne_zero (Nat.ne_of_gt (Nat.zero_lt_of_lt hfuel))
  rw [hstep fuel (by omega), h fuel (by omega)]

/-- The expression of alternatives, given last first, and the parts of the last one. -/
def result (finished : List (Nested Regex)) (parts : List Part) : Nested Regex :=
  .join Regex.choice (sequence parts :: finished).reverse

/-- The text ends with the parts read so far. -/
theorem yields_end (finished : List (Nested Regex)) (parts : List Part) (g : Nat) :
    Yields engine finished parts g [] (result finished parts, At g []) := by
  intro fuel hfuel
  obtain ⟨fuel, rfl⟩ := Nat.exists_eq_succ_of_ne_zero (Nat.ne_of_gt hfuel)
  rw [alternatives.eq_def]
  rfl

/-- A closing parenthesis ends the group, and is left to be read. -/
theorem yields_close (finished : List (Nested Regex)) (parts : List Part) (g : Nat)
    (rest : List Char) :
    Yields engine finished parts g (')' :: rest) (result finished parts, At g (')' :: rest)) := by
  intro fuel hfuel
  obtain ⟨fuel, rfl⟩ := Nat.exists_eq_succ_of_ne_zero (Nat.ne_of_gt (Nat.zero_lt_of_lt hfuel))
  rw [alternatives.eq_def]
  rfl

/-- A bar ends an alternative. -/
theorem Yields.bar (h : Yields engine (sequence parts :: finished) [] g rest out) :
    Yields engine finished parts g ('|' :: rest) out := by
  refine h.of_step (Nat.lt_succ_self _) fun fuel _ ↦ ?_
  rw [alternatives.eq_def]
  rfl

/-- A sign that is neither an operator nor a bracket is read by itself. -/
theorem Yields.sign (h : Yields engine finished ({ item := some r } :: parts) g rest out)
    (hc : c ∉ [')', '|', '?', '*', '+', '\x7b', '(', '['])
    (hread : sign engine c (At g (c :: cs)) = some (r, At g rest))
    (hlength : rest.length ≤ cs.length) :
    Yields engine finished parts g (c :: cs) out := by
  simp only [List.mem_cons, List.not_mem_nil, or_false, not_or] at hc
  refine h.of_step (Nat.lt_succ_of_le hlength) fun fuel _ ↦ ?_
  rw [alternatives.eq_def]
  simp only [bind_apply, skipSpace_apply, peek?_apply, Option.bind_some, List.head?_cons, hc,
    if_false, or_self, hread]

/-- A character that means nothing else outside bracketed classes. -/
def IsPlain (c : Char) : Prop :=
  c ∉ [')', '|', '?', '*', '+', '\x7b', '(', '[', '\\', '.', '^', '$']

instance (c : Char) : Decidable (IsPlain c) :=
  inferInstanceAs (Decidable (¬ _))

/-- A plain character is read to itself, up to case. -/
theorem Yields.char
    (h : Yields engine finished ({ item := some (.set (.like c)) } :: parts) g rest out)
    (hc : IsPlain c) : Yields engine finished parts g (c :: rest) out := by
  simp only [IsPlain, List.mem_cons, List.not_mem_nil, or_false, not_or] at hc
  refine h.sign (by simp [hc]) ?_ (Nat.le_refl _)
  rw [Reader.sign, bind_apply, get_apply, Option.bind_some]
  simp only [hc, if_false]
  rfl

private theorem escape_apply (hc : standsForItself c = true) (g : Nat) (rest : List Char) :
    escape engine (At g ('\\' :: c :: rest)) = some (.char c, At g rest) := by
  have hword : c.isAlphanum = false := by
    rw [standsForItself] at hc
    simp only [Bool.and_eq_true, Bool.not_eq_true'] at hc
    exact hc.1.1.2
  have hdigit : ¬ c.isDigit = true := by
    intro h
    rw [Char.isAlphanum, h, Bool.or_true] at hword
    cases hword
  have hne {d : Char} (hd : d.isAlphanum = true) : c ≠ d := by
    rintro rfl
    rw [hd] at hword
    cases hword
  rw [escape, bind_apply, skip_apply, Option.bind_some]
  show (peek >>= _ : Read Escape) (At g (c :: rest)) = _
  rw [bind_apply, peek_apply, Option.bind_some, if_neg hdigit, if_neg (hne rfl), if_neg (hne rfl),
    if_neg (hne rfl), if_neg (not_or.mpr ⟨hne rfl, hne rfl⟩), bind_apply, skip_apply,
    Option.bind_some, if_pos hc]
  rfl

/-- A character behind a backslash is read to itself, up to case. -/
theorem Yields.escaped
    (h : Yields engine finished ({ item := some (.set (.like c)) } :: parts) g rest out)
    (hc : standsForItself c = true) : Yields engine finished parts g ('\\' :: c :: rest) out := by
  refine h.sign (by decide) ?_ (Nat.le_succ _)
  rw [Reader.sign, bind_apply, get_apply, Option.bind_some, if_pos rfl, bind_apply,
    escape_apply hc, Option.bind_some]
  rfl

/-- The escape for blanks is read to their class. -/
theorem Yields.blank
    (h : Yields engine finished ({ item := some (.set .blank) } :: parts) g rest out) :
    Yields engine finished parts g ('\\' :: 's' :: rest) out :=
  h.sign (by decide) rfl (Nat.le_succ _)

/-- A dot is read to the characters within a line. -/
theorem Yields.inLine
    (h : Yields engine finished ({ item := some (.set (.compl (.single '\n'))) } :: parts) g rest
      out) :
    Yields engine finished parts g ('.' :: rest) out :=
  h.sign (by decide) rfl (Nat.le_refl _)

/-- An operator of one sign repeats greedily unless a question mark follows it. -/
private theorem repetition_apply (hc : c ≠ '\x7b') (hrest : rest.head? ≠ some '?') (r : Regex)
    (g : Nat) : Reader.repetition r (At g (c :: rest)) = some
      (if c = '?' then r.optional true else if c = '*' then r.star true else .plus true r,
        At g rest) := by
  rw [Reader.repetition, bind_apply, peek_apply, Option.bind_some, if_neg hc]
  show (greed (At g rest)).bind _ = _
  rw [greed_apply hrest]
  show (if c = '?' then pure (r.optional true) else if c = '*' then pure (r.star true)
    else pure (.plus true r) : Read Regex) (At g rest) = _
  split
  · rfl
  · split <;> rfl

/-- An operator changes the part before it. -/
private theorem Yields.repetition {r' : Regex} {depth : Nat}
    (h : Yields engine finished (⟨some r', depth + 1⟩ :: parts) g rest out)
    (hc : c = '?' ∨ c = '*' ∨ c = '+' ∨ c = '\x7b')
    (hread : repetition r (At g (c :: cs)) = some (r', At g rest))
    (hlength : rest.length ≤ cs.length) :
    Yields engine finished (⟨some r, depth⟩ :: parts) g (c :: cs) out := by
  have hne : c ≠ ')' ∧ c ≠ '|' := by rcases hc with rfl | rfl | rfl | rfl <;> decide
  refine h.of_step (Nat.lt_succ_of_le hlength) fun fuel _ ↦ ?_
  rw [alternatives.eq_def]
  simp only [bind_apply, skipSpace_apply, peek?_apply, Option.bind_some, List.head?_cons, hne,
    if_false, hc, if_true, hread]

variable {depth : Nat}

/-- A star repeats the part before it. -/
theorem Yields.star
    (h : Yields engine finished (⟨some (.star true r), depth + 1⟩ :: parts) g rest out)
    (hrest : rest.head? ≠ some '?') :
    Yields engine finished (⟨some r, depth⟩ :: parts) g ('*' :: rest) out := by
  refine h.repetition (by decide) ?_ (Nat.le_refl _)
  rw [repetition_apply (by decide) hrest]
  rfl

/-- A star and a question mark repeat the part before them lazily. -/
theorem Yields.lazyStar
    (h : Yields engine finished (⟨some (.star false r), depth + 1⟩ :: parts) g rest out) :
    Yields engine finished (⟨some r, depth⟩ :: parts) g ('*' :: '?' :: rest) out :=
  h.repetition (by decide) rfl (Nat.le_succ _)

/-- A question mark makes the part before it optional. -/
theorem Yields.optional
    (h : Yields engine finished (⟨some (.optional true r), depth + 1⟩ :: parts) g rest out)
    (hrest : rest.head? ≠ some '?') :
    Yields engine finished (⟨some r, depth⟩ :: parts) g ('?' :: rest) out := by
  refine h.repetition (by decide) ?_ (Nat.le_refl _)
  rw [repetition_apply (by decide) hrest]
  rfl

/-- A negated bracketed class is read to the characters it does not list, up to case. -/
theorem Yields.noneOf (hcs : ∀ c ∈ cs, InClass c) (hne : cs ≠ [])
    (h : Yields engine finished
      (⟨some (.set (.compl (.folded (.ofList cs)))), (listed cs).depth + 1⟩ :: parts) g rest out) :
    Yields engine finished parts g ('[' :: '^' :: (cs.flatMap classText ++ ']' :: rest)) out := by
  refine h.of_step ?_ fun fuel _ ↦ ?_
  · rw [List.length_cons, List.length_cons, List.length_append, List.length_cons]
    omega
  · rw [alternatives.eq_def]
    show (bracketedSet engine (At g ('[' :: '^' :: (cs.flatMap classText ++ ']' :: rest)))).bind
      _ = _
    rw [bracketedSet_apply hcs hne]
    rfl

/-- A group is opened where no question mark follows the parenthesis. -/
theorem opening_apply {cs : List Char} (h : cs.head? ≠ some '?') (g : Nat) :
    opening (At g cs) = some (.numbered (g + 1), At (g + 1) cs) := by
  have hlook : (["?=", "?!", "?<=", "?<!"].any fun s ↦ s.toList.isPrefixOf cs) = false := by
    rw [List.any_eq_false]
    intro s hs
    rw [Bool.not_eq_true]
    refine not_isPrefixOf ?_ h
    revert s
    decide
  have hnamed : skipIf "?P<" (At g cs) = some (false, At g cs) := skipIf_apply rfl h g
  have hangle : skipIf "?<" (At g cs) = some (false, At g cs) := skipIf_apply rfl h g
  have hflags : skipIf "?" (At g cs) = some (false, At g cs) := skipIf_apply rfl h g
  rw [opening, bind_apply, unread_apply, Option.bind_some, hlook, if_neg Bool.false_ne_true,
    bind_apply, hnamed, Option.bind_some, bind_apply, hangle, Option.bind_some]
  show (skipIf "?" (At g cs)).bind _ = _
  rw [hflags]
  rfl

/-- A group is read to its expression, under the next number. -/
theorem Yields.group {inner : List Char} {body : Nested Regex} (hinner : inner.head? ≠ some '?')
    (hbody : Yields engine [] [] (g + 1) inner (body, At g' (')' :: rest)))
    (h : Yields engine finished (body.wrap (fun r ↦ some (.group (g + 1) r)) :: parts) g' rest out)
    (hlength : rest.length ≤ inner.length) :
    Yields engine finished parts g ('(' :: inner) out := by
  refine h.of_step (Nat.lt_succ_of_le hlength) fun fuel hfuel ↦ ?_
  have hopening := opening_apply hinner g
  have hbody := hbody fuel hfuel
  rw [alternatives.eq_def]
  show (opening (At g inner)).bind _ = _
  rw [hopening, Option.bind_some]
  show (alternatives engine fuel [] [] (At (g + 1) inner)).bind _ = _
  rw [hbody]
  rfl

/-- A group without a number. -/
theorem Yields.plainGroup {inner : List Char} {body : Nested Regex}
    (hbody : Yields engine [] [] g inner (body, At g' (')' :: rest)))
    (h : Yields engine finished (body.wrap some :: parts) g' rest out)
    (hlength : rest.length ≤ inner.length) :
    Yields engine finished parts g ('(' :: '?' :: ':' :: inner) out := by
  refine h.of_step (by simp; omega) fun fuel hfuel ↦ ?_
  have hbody := hbody fuel (by simp at hfuel; omega)
  rw [alternatives.eq_def]
  show (alternatives engine fuel [] [] (At g inner)).bind _ = _
  rw [hbody]
  rfl

end Yields

end KeyHarvest.Regex.Reader
