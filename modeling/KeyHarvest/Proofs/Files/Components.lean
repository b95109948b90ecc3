import KeyHarvest.Proofs.Files.Path
import Mathlib.Data.List.Infix

/-!
# Components of a path

A path begins at the top, with a dot, or with neither (`Opening`), and goes on with a component for
each of its names, two dots being one of them (`components_eq_names`). So one path starts with
another if both begin alike and the names of the one start with the names of the other
(`startsWith_iff`). A path begins alike when it is joined with another, unless that one stands alone
(`GoesOn`).
-/

namespace KeyHarvest.Path

open Text

/-- How a path begins. -/
inductive Opening where
  /-- At the top of the file system. -/
  | top
  /-- With a dot. -/
  | dot
  /-- With a name or two dots, or not at all. -/
  | bare
  deriving DecidableEq, Repr

/-- The components with which a path begins. -/
def Opening.components : Opening → List Component
  | .top => [.top]
  | .dot => [.current]
  | .bare => []

/-- How a path begins. -/
def opening (p : Path) : Opening :=
  match p.components.head? with
  | some .top => .top
  | some .current => .dot
  | _ => .bare

/-- A path has a first piece. -/
theorem exists_pieces_eq_cons (p : Path) : ∃ first rest, p.pieces = first :: rest :=
  List.exists_cons_of_ne_nil (divide_ne_nil '/' p.text)

/-- The first piece is empty if the path has no text or begins at the top. -/
theorem first_eq_empty_iff {p : Path} {first : String} {rest : List String}
    (hp : p.pieces = first :: rest) : first = "" ↔ p.text = "" ∨ p.isAbsolute = true := by
  have h := head?_divide_eq_empty_iff '/' p.text
  rw [show divide '/' p.text = p.pieces from rfl, hp, List.head?_cons, Option.some_inj] at h
  rw [h, isAbsolute, beq_iff_eq]

/-- A path from the top has text. -/
theorem text_ne_empty_of_isAbsolute {p : Path} (h : p.isAbsolute = true) : p.text ≠ "" := by
  intro he
  rw [isAbsolute, he] at h
  cases h

/-! ### Names as components -/

/-- The component of a name, two dots being one. -/
def componentOf (name : String) : Component :=
  if name = ".." then .parent else .name name

private theorem componentOf_injective : Function.Injective componentOf := by
  intro a b h
  rw [componentOf, componentOf] at h
  split at h <;> split at h
  · next ha hb => rw [ha, hb]
  · cases h
  · cases h
  · exact Component.name.inj h

/-- The components of pieces after the first one are those of the names among them. -/
theorem filterMap_component? (pieces : List String) :
    pieces.filterMap component? = (namesIn pieces).map componentOf := by
  induction pieces with
  | nil => rfl
  | cons piece rest ih =>
    cases hi : isIdle piece with
    | true =>
      have hnone : component? piece = none := if_pos ((isIdle_eq_true_iff piece).mp hi)
      rw [List.filterMap_cons_none hnone, namesIn_cons_of_idle hi, ih]
    | false =>
      have hsome : component? piece = some (componentOf piece) := by
        rw [component?, if_neg (not_or.mpr ((isIdle_eq_false_iff piece).mp hi)), componentOf]
        split <;> rfl
      rw [List.filterMap_cons_some hsome, namesIn_cons_of_name hi, List.map_cons, ih]

/-- The components of a path by its first piece and the others. -/
theorem components_of_pieces {p : Path} {first : String} {rest : List String}
    (hp : p.pieces = first :: rest) : p.components =
      (if p.isAbsolute then [.top] else if first = "." then [.current] else
        (namesIn [first]).map componentOf) ++ (namesIn rest).map componentOf := by
  have hfirst := filterMap_component? [first]
  rw [List.filterMap_cons, List.filterMap_nil] at hfirst
  rw [← filterMap_component? rest, ← hfirst]
  simp only [components, hp]
  cases component? first <;> rfl

/-- How a path begins, by its first piece. -/
theorem opening_of_pieces {p : Path} {first : String} {rest : List String}
    (hp : p.pieces = first :: rest) (hne : p.text ≠ "") : p.opening =
      if p.isAbsolute then .top else if first = "." then .dot else .bare := by
  rw [opening, components_of_pieces hp]
  cases ha : p.isAbsolute with
  | true => rfl
  | false =>
    have hfirst : first ≠ "" := by simpa [ha, hne] using mt (first_eq_empty_iff hp).mp
    by_cases hdot : first = "."
    · subst hdot
      rfl
    · have hi : isIdle first = false := (isIdle_eq_false_iff first).mpr ⟨hfirst, hdot⟩
      rw [if_neg Bool.false_ne_true, if_neg Bool.false_ne_true, if_neg hdot, if_neg hdot,
        namesIn_cons_of_name hi, List.map_cons, componentOf]
      split_ifs <;> rfl

/-- The components of a path are those with which it begins and those of its names. -/
theorem components_eq_names {p : Path} (hne : p.text ≠ "") :
    p.components = p.opening.components ++ p.names.map componentOf := by
  obtain ⟨first, rest, hp⟩ := p.exists_pieces_eq_cons
  rw [opening_of_pieces hp hne, components_of_pieces hp, names, hp, namesIn_cons first rest]
  cases ha : p.isAbsolute with
  | true =>
    have hfirst : first = "" := (first_eq_empty_iff hp).mpr (.inr ha)
    subst hfirst
    rfl
  | false =>
    by_cases hdot : first = "."
    · subst hdot
      rfl
    · simp [hdot, Opening.components]

/-- A path with text has components. -/
theorem components_ne_nil {p : Path} (hne : p.text ≠ "") : p.components ≠ [] := by
  obtain ⟨first, rest, hp⟩ := p.exists_pieces_eq_cons
  rw [components_of_pieces hp]
  cases ha : p.isAbsolute with
  | true => simp
  | false =>
    have hfirst : first ≠ "" := by simpa [ha, hne] using mt (first_eq_empty_iff hp).mp
    by_cases hdot : first = "."
    · simp [hdot]
    · have hi : isIdle first = false := (isIdle_eq_false_iff first).mpr ⟨hfirst, hdot⟩
      simp [hdot, namesIn_cons_of_name hi]

/-- A path begins at the top if it is absolute. -/
theorem opening_eq_top_iff (p : Path) : p.opening = .top ↔ p.isAbsolute = true := by
  obtain ⟨first, rest, hp⟩ := p.exists_pieces_eq_cons
  by_cases hne : p.text = ""
  · rw [show p = ⟨""⟩ from congrArg Path.mk hne]
    decide
  · rw [opening_of_pieces hp hne]
    split_ifs <;> simp_all

/-- Paths with text begin alike if their first pieces are the same. -/
theorem opening_congr {p q : Path} (hne : p.text ≠ "") (hne' : q.text ≠ "")
    (h : p.pieces.head? = q.pieces.head?) : p.opening = q.opening := by
  obtain ⟨first, rest, hp⟩ := p.exists_pieces_eq_cons
  obtain ⟨first', rest', hq⟩ := q.exists_pieces_eq_cons
  rw [hp, hq, List.head?_cons, List.head?_cons, Option.some_inj] at h
  subst h
  have habs : p.isAbsolute = q.isAbsolute := by
    rw [Bool.eq_iff_iff]
    have h := (first_eq_empty_iff hp).symm.trans (first_eq_empty_iff hq)
    simpa only [hne, hne', false_or] using h
  rw [opening_of_pieces hp hne, opening_of_pieces hq hne', habs]

/-! ### Joined paths -/

/-- The pieces of a joined path are those of the first path, but for an empty one at its end, and
those of the second. -/
theorem exists_pieces_join {p q : Path} (hp : p.text ≠ "") (hq : q.isAbsolute = false) :
    ∃ front, front ≠ [] ∧ (p.pieces = front ∨ p.pieces = front ++ [""]) ∧
      (p.join q).pieces = front ++ q.pieces := by
  have hsep : "/".toList = ['/'] := rfl
  rw [join, if_neg (by simp [hq])]
  by_cases hslash : p.text.toList.getLast? = some '/'
  · rw [if_pos (.inr hslash)]
    obtain ⟨before, hbefore⟩ := List.getLast?_eq_some_iff.mp hslash
    have htext : p.text = String.ofList before ++ "/" := by
      apply String.toList_inj.mp
      rw [hbefore, String.toList_append, String.toList_ofList]
      rfl
    refine ⟨divide '/' (String.ofList before), divide_ne_nil _ _, .inr ?_, ?_⟩
    · show divide '/' p.text = divide '/' (String.ofList before) ++ divide '/' ""
      rw [← divide_append hsep, String.append_empty, ← htext]
    · rw [htext]
      exact divide_append hsep _ _
  · rw [if_neg (by simp [hp, hslash])]
    exact ⟨p.pieces, divide_ne_nil _ _, .inl rfl, divide_append hsep _ _⟩

/-- A path joined to one with text has text. -/
theorem text_join_ne_empty {p : Path} (q : Path) (hp : p.text ≠ "") : (p.join q).text ≠ "" := by
  rw [join]
  split
  · next ha => exact text_ne_empty_of_isAbsolute ha
  · split <;> simp [String.append_eq_empty_iff, hp]

/-- A text that can name an entry of a directory. -/
def NamesEntry (name : String) : Prop :=
  name ≠ "" ∧ name ≠ "." ∧ name ≠ ".." ∧ '/' ∉ name.toList

/-- A text without slashes is the only piece of its path. -/
theorem pieces_of_name {name : String} (hslash : '/' ∉ name.toList) :
    Path.pieces ⟨name⟩ = [name] := by
  simpa using pieces_join (List.cons_ne_nil name []) (by simpa using hslash)

/-- A text without slashes is no path from the top. -/
theorem isAbsolute_of_name {name : String} (hslash : '/' ∉ name.toList) :
    Path.isAbsolute ⟨name⟩ = false := by
  rw [Bool.eq_false_iff]
  exact fun ha ↦ hslash (List.mem_of_mem_head? (beq_iff_eq.mp ha))

/-- The path of an entry ends in its name. -/
theorem NamesEntry.exists_pieces_child {name : String} (h : NamesEntry name) {p : Path}
    (hp : p.text ≠ "") : ∃ front, front ≠ [] ∧ (p.pieces = front ∨ p.pieces = front ++ [""]) ∧
      (p.child name).pieces = front ++ [name] := by
  obtain ⟨-, -, -, hslash⟩ := h
  obtain ⟨front, hne, hfront, hjoin⟩ := exists_pieces_join hp (isAbsolute_of_name hslash)
  exact ⟨front, hne, hfront, pieces_of_name hslash ▸ hjoin⟩

/-- A joined path begins as the first path does, unless the second one stands alone. -/
theorem opening_join {p q : Path} (hp : p.text ≠ "") (hq : q.isAbsolute = false) :
    (p.join q).opening = p.opening := by
  refine opening_congr (text_join_ne_empty q hp) hp ?_
  obtain ⟨front, hne, hpieces, hjoin⟩ := exists_pieces_join hp hq
  rw [hjoin, List.head?_append_of_ne_nil _ hne]
  rcases hpieces with h | h
  · rw [h]
  · rw [h, List.head?_append_of_ne_nil _ hne]

/-! ### Paths that go on -/

/-- A path goes on from another one: it has text and begins as that one does, or at the top. -/
structure GoesOn (p q : Path) : Prop where
  text_ne_empty : q.text ≠ ""
  opening : q.opening = p.opening ∨ q.opening = .top

/-- A path with text goes on from itself. -/
theorem GoesOn.refl {p : Path} (hp : p.text ≠ "") : GoesOn p p :=
  ⟨hp, .inl rfl⟩

/-- What goes on from a path that goes on from another one goes on from that one. -/
theorem GoesOn.trans {p q r : Path} (h : GoesOn p q) (h' : GoesOn q r) : GoesOn p r := by
  refine ⟨h'.text_ne_empty, ?_⟩
  rcases h'.opening with hr | hr
  · rw [hr]
    exact h.opening
  · exact .inr hr

/-- A path goes on from the one to which it is joined. -/
theorem goesOn_join {p : Path} (hp : p.text ≠ "") (q : Path) : GoesOn p (p.join q) := by
  refine ⟨text_join_ne_empty q hp, ?_⟩
  cases hq : q.isAbsolute with
  | true =>
    rw [join, if_pos hq]
    exact .inr ((opening_eq_top_iff q).mpr hq)
  | false => exact .inl (opening_join hp hq)

/-! ### Paths without a leading dot -/

/-- A path that has text and does not begin with a dot. -/
structure Bare (p : Path) : Prop where
  text_ne_empty : p.text ≠ ""
  opening_ne : p.opening ≠ .dot

/-- What goes on from a path without a leading dot has none. -/
theorem Bare.goesOn {p q : Path} (hp : Bare p) (h : GoesOn p q) : Bare q := by
  refine ⟨h.text_ne_empty, ?_⟩
  rcases h.opening with heq | htop
  · rw [heq]
    exact hp.opening_ne
  · simp [htop]

/-- A single name is a path without a leading dot. -/
theorem bare_of_name {name : String} (hempty : name ≠ "") (hdot : name ≠ ".")
    (hslash : '/' ∉ name.toList) : Bare ⟨name⟩ := by
  refine ⟨hempty, ?_⟩
  rw [opening_of_pieces (pieces_of_name hslash) hempty, isAbsolute_of_name hslash,
    if_neg Bool.false_ne_true, if_neg hdot]
  nofun

/-! ### Paths that start alike -/

/-- A path starts with another if both begin alike and its names start with those of the other. -/
theorem startsWith_iff {p start : Path} (hne : p.text ≠ "") (hne' : start.text ≠ "") :
    p.startsWith start = true ↔ p.opening = start.opening ∧ start.names <+: p.names := by
  have hnames : start.names.map componentOf <+: p.names.map componentOf ↔
      start.names <+: p.names :=
    List.prefix_map_iff_of_injective componentOf_injective
  rw [startsWith, List.isPrefixOf_iff_prefix]
  constructor
  · intro h
    have hopening : p.opening = start.opening := by
      obtain ⟨more, hmore⟩ := h
      rw [opening, opening, ← hmore, List.head?_append_of_ne_nil _ (components_ne_nil hne')]
    rw [components_eq_names hne, components_eq_names hne', hopening,
      List.prefix_append_right_inj, hnames] at h
    exact ⟨hopening, h⟩
  · rintro ⟨hopening, h⟩
    rw [components_eq_names hne, components_eq_names hne', hopening,
      List.prefix_append_right_inj, hnames]
    exact h

/-! ### Paths that are the same -/

/-- Components are told apart by their texts for sorting. -/
theorem Component.sortText_injective : Function.Injective Component.sortText := by
  intro c d h
  have h' := String.toList_inj.mpr h
  cases c with
  | name s =>
    cases d with
    | name t => exact congrArg Component.name (by simpa [sortText, String.toList_inj] using h')
    | _ => simp [sortText] at h'
  | _ =>
    cases d with
    | name t => simp [sortText] at h'
    | _ => first | rfl | exact absurd h (by decide)

/-- Paths are the same if their components are. -/
theorem sameAs_iff (p q : Path) : p.sameAs q = true ↔ p.components = q.components :=
  beq_iff_eq

/-- Paths that are the same begin alike. -/
theorem opening_of_sameAs {p q : Path} (h : p.sameAs q = true) : p.opening = q.opening := by
  rw [opening, opening, (sameAs_iff p q).mp h]

/-- Paths that are the same start with the same paths. -/
theorem startsWith_congr {p q : Path} (h : p.sameAs q = true) (start : Path) :
    p.startsWith start = q.startsWith start := by
  rw [startsWith, startsWith, (sameAs_iff p q).mp h]

/-- Paths have the same key for sorting if they are the same. -/
theorem sortKey_eq_iff (p q : Path) : p.sortKey = q.sortKey ↔ p.sameAs q = true := by
  rw [sameAs_iff, sortKey, sortKey]
  exact List.map_inj_right fun _ _ h ↦ Component.sortText_injective h

end KeyHarvest.Path
