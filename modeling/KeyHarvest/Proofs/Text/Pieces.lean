/-!
# Texts divided at a character

Dividing a text at a character and joining texts with that character undo each other
(`join_divide`, `divide_join`), provided the joined texts do not hold the character: the first place
of a character divides a text in one way (`append_cons_inj_of_not_mem`). A text that goes on after
the character goes on in its pieces (`divide_append`).
-/

namespace KeyHarvest.Text

/-- Two texts are the same up to a character that stands in them as often. -/
theorem append_cons_inj_of_count_eq {c : Char} {a a' b b' : List Char}
    (h : a.count c = a'.count c) : a ++ c :: b = a' ++ c :: b' ↔ a = a' ∧ b = b' := by
  constructor
  · intro he
    induction a generalizing a' with
    | nil =>
      cases a' with
      | nil => exact ⟨rfl, (List.cons.inj he).2⟩
      | cons d a' =>
        rw [← (List.cons.inj he).1, List.count_nil, List.count_cons_self] at h
        omega
    | cons d a ih =>
      cases a' with
      | nil =>
        rw [(List.cons.inj he).1, List.count_nil, List.count_cons_self] at h
        omega
      | cons d' a' =>
        obtain ⟨hd, he⟩ := List.cons_eq_cons.mp he
        rw [hd, List.count_cons, List.count_cons, Nat.add_right_cancel_iff] at h
        obtain ⟨ha, hb⟩ := ih h he
        exact ⟨List.cons_eq_cons.mpr ⟨hd, ha⟩, hb⟩
  · rintro ⟨rfl, rfl⟩
    rfl

/-- Two texts that go on with a character they do not hold are the same up to there. -/
theorem append_cons_inj_of_not_mem {c : Char} {a a' b b' : List Char} (h : c ∉ a) (h' : c ∉ a') :
    a ++ c :: b = a' ++ c :: b' ↔ a = a' ∧ b = b' :=
  append_cons_inj_of_count_eq
    ((List.count_eq_zero_of_not_mem h).trans (List.count_eq_zero_of_not_mem h').symm)

/-- The pieces of a text between the places where a character stands. -/
def divide (c : Char) (text : String) : List String :=
  (text.toList.splitOn c).map String.ofList

/-- A divided text has a piece. -/
theorem divide_ne_nil (c : Char) (text : String) : divide c text ≠ [] := by
  simp [divide, List.splitOn_ne_nil]

private theorem not_mem_of_mem_splitOn {c : Char} (cs : List Char) :
    ∀ piece ∈ cs.splitOn c, c ∉ piece := by
  induction cs with
  | nil => simp
  | cons d cs ih =>
    rw [List.splitOn_cons_eq_if_modifyHead]
    split
    · simpa using ih
    · next hne =>
      intro piece hp
      cases hs : cs.splitOn c with
      | nil => exact absurd hs (List.splitOn_ne_nil c cs)
      | cons first rest =>
        rw [hs, List.modifyHead_cons] at hp
        rw [hs] at ih
        rcases List.mem_cons.mp hp with rfl | hp
        · intro hm
          rcases List.mem_cons.mp hm with rfl | hm
          · simp at hne
          · exact ih first List.mem_cons_self hm
        · exact ih piece (List.mem_cons_of_mem _ hp)

/-- No piece holds the character. -/
theorem not_mem_of_mem_divide {c : Char} {text piece : String} (h : piece ∈ divide c text) :
    c ∉ piece.toList := by
  obtain ⟨cs, hcs, rfl⟩ := List.mem_map.mp h
  rw [String.toList_ofList]
  exact not_mem_of_mem_splitOn _ cs hcs

/-- Every other character of the text stands in a piece. -/
theorem exists_mem_divide {c d : Char} (hne : d ≠ c) {text : String} (h : d ∈ text.toList) :
    ∃ piece ∈ divide c text, d ∈ piece.toList := by
  have split (cs : List Char) (h : d ∈ cs) : ∃ piece ∈ cs.splitOn c, d ∈ piece := by
    induction cs with
    | nil => cases h
    | cons a cs ih =>
      rw [List.splitOn_cons_eq_if_modifyHead]
      split
      · next heq =>
        have hcs := (List.mem_cons.mp h).resolve_left fun hd ↦ hne (hd.trans (beq_iff_eq.mp heq))
        obtain ⟨piece, hp, hd⟩ := ih hcs
        exact ⟨piece, List.mem_cons_of_mem _ hp, hd⟩
      · cases hs : cs.splitOn c with
        | nil => exact absurd hs (List.splitOn_ne_nil c cs)
        | cons first rest =>
          rw [List.modifyHead_cons]
          rcases List.mem_cons.mp h with rfl | hcs
          · exact ⟨_, List.mem_cons_self, List.mem_cons_self⟩
          · rw [hs] at ih
            obtain ⟨piece, hp, hd⟩ := ih hcs
            rcases List.mem_cons.mp hp with rfl | hp
            · exact ⟨_, List.mem_cons_self, List.mem_cons_of_mem _ hd⟩
            · exact ⟨piece, List.mem_cons_of_mem _ hp, hd⟩
  obtain ⟨cs, hcs, hd⟩ := split _ h
  exact ⟨String.ofList cs, List.mem_map_of_mem hcs, by rwa [String.toList_ofList]⟩

/-- The pieces of a text joined give the text. -/
theorem join_divide {c : Char} {separator : String} (hs : separator.toList = [c]) (text : String) :
    separator.intercalate (divide c text) = text := by
  have hid : (String.toList ∘ String.ofList : List Char → List Char) = id := by
    ext1 cs
    exact String.toList_ofList
  apply String.toList_inj.mp
  rw [String.toList_intercalate, hs, divide, List.map_map, hid, List.map_id,
    List.intercalate_splitOn]

/-- Every character of a piece stands in the text. -/
theorem mem_of_mem_divide {c d : Char} {text piece : String} (h : piece ∈ divide c text)
    (hd : d ∈ piece.toList) : d ∈ text.toList := by
  have join (pieces : List (List Char)) {cs : List Char} (hcs : cs ∈ pieces) (hd : d ∈ cs) :
      d ∈ [c].intercalate pieces := by
    induction pieces with
    | nil => cases hcs
    | cons first rest ih =>
      cases rest with
      | nil => rwa [List.intercalate_singleton, ← List.mem_singleton.mp hcs]
      | cons =>
        rw [List.intercalate_cons_cons, List.append_assoc, List.mem_append, List.mem_append]
        rcases List.mem_cons.mp hcs with rfl | hcs
        · exact .inl hd
        · exact .inr (.inr (ih hcs))
  obtain ⟨cs, hcs, rfl⟩ := List.mem_map.mp h
  rw [String.toList_ofList] at hd
  have hjoined : [c].intercalate (text.toList.splitOn c) = text.toList :=
    List.intercalate_splitOn c
  rw [← hjoined]
  exact join _ hcs hd

/-- Joined texts without the character are the pieces of what they give. -/
theorem divide_join {c : Char} {separator : String} (hs : separator.toList = [c])
    {pieces : List String} (hne : pieces ≠ []) (h : ∀ piece ∈ pieces, c ∉ piece.toList) :
    divide c (separator.intercalate pieces) = pieces := by
  have hid : (String.ofList ∘ String.toList : String → String) = id := by
    ext1 s
    exact String.ofList_toList
  have hsplit : ([c].intercalate (pieces.map String.toList)).splitOn c =
      pieces.map String.toList := by
    apply List.splitOn_intercalate
    · intro cs hcs
      obtain ⟨piece, hp, rfl⟩ := List.mem_map.mp hcs
      exact h piece hp
    · simpa using hne
  rw [divide, String.toList_intercalate, hs, hsplit, List.map_map, hid, List.map_id]

/-- The pieces of a text that goes on after the character are those before it and those behind. -/
theorem divide_append {c : Char} {separator : String} (hs : separator.toList = [c])
    (front back : String) :
    divide c (front ++ separator ++ back) = divide c front ++ divide c back := by
  have hjoin : front ++ separator ++ back =
      separator.intercalate (divide c front ++ divide c back) := by
    rw [String.intercalate_append_of_ne_nil (divide_ne_nil _ _) (divide_ne_nil _ _),
      join_divide hs, join_divide hs]
  rw [hjoin]
  refine divide_join hs ?_ fun piece hpiece ↦ ?_
  · exact fun h ↦ divide_ne_nil c front (List.append_eq_nil_iff.mp h).1
  · rcases List.mem_append.mp hpiece with h | h <;> exact not_mem_of_mem_divide h

/-- The first piece is empty if the text is or begins with the character. -/
theorem head?_divide_eq_empty_iff (c : Char) (text : String) :
    (divide c text).head? = some "" ↔ text = "" ∨ text.toList.head? = some c := by
  rw [← String.toList_eq_nil_iff, divide]
  cases text.toList with
  | nil => simp
  | cons d cs =>
    rw [List.splitOn_cons_eq_if_modifyHead]
    split
    · next heq => simpa using heq
    · next hne =>
      cases hs : cs.splitOn c with
      | nil => exact absurd hs (List.splitOn_ne_nil c cs)
      | cons first rest => simpa using hne

end KeyHarvest.Text
