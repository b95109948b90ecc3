import KeyHarvest.Files.Path
import KeyHarvest.Proofs.Text.Pieces

/-!
# Names on a path

The names on a path are its pieces without the idle ones, which are empty or a dot. The path above
one that ends in a name has the names before the last (`exists_parent?`), and it ends in a name
itself, is a dot or the top, or has no text (`IsTrim`).
-/

namespace KeyHarvest.Path

open Text

/-- Whether a piece is no component wherever it stands but first. -/
def isIdle (piece : String) : Bool :=
  piece = "" || piece = "."

/-- The names among pieces. -/
def namesIn (pieces : List String) : List String :=
  pieces.filter fun piece ↦ !isIdle piece

/-- The names on a path. -/
def names (p : Path) : List String :=
  namesIn p.pieces

/-- An idle piece is empty or a dot. -/
theorem isIdle_eq_true_iff (piece : String) : isIdle piece = true ↔ piece = "" ∨ piece = "." := by
  simp [isIdle]

/-- A piece that is not idle is neither empty nor a dot. -/
theorem isIdle_eq_false_iff (piece : String) : isIdle piece = false ↔ piece ≠ "" ∧ piece ≠ "." := by
  simp [isIdle]

/-- The names among pieces are those of one part and then those of the other. -/
theorem namesIn_append (l m : List String) : namesIn (l ++ m) = namesIn l ++ namesIn m :=
  List.filter_append l m

/-- The names among pieces are that of the first one, if it is one, and those of the others. -/
theorem namesIn_cons (piece : String) (rest : List String) :
    namesIn (piece :: rest) = namesIn [piece] ++ namesIn rest :=
  namesIn_append [piece] rest

/-- An idle piece adds no name. -/
theorem namesIn_cons_of_idle {piece : String} (h : isIdle piece = true) (rest : List String) :
    namesIn (piece :: rest) = namesIn rest :=
  List.filter_cons_of_neg (by simp [h])

/-- A piece that is not idle is a name. -/
theorem namesIn_cons_of_name {piece : String} (h : isIdle piece = false) (rest : List String) :
    namesIn (piece :: rest) = piece :: namesIn rest :=
  List.filter_cons_of_pos (by simp [h])

/-- The names on a path that ends in a name. -/
theorem names_of_pieces {p : Path} {above : List String} {name : String}
    (hp : p.pieces = above ++ [name]) (hn : isIdle name = false) :
    p.names = namesIn above ++ [name] := by
  rw [names, hp, namesIn_append, namesIn_cons_of_name hn]
  rfl

/-- The names of a path are not on the way to them. -/
theorem namesIn_prefix_names {p : Path} {above : List String} {name : String}
    (hp : p.pieces = above ++ [name]) (hn : isIdle name = false) : namesIn above <+: p.names := by
  rw [names_of_pieces hp hn]
  exact List.prefix_append _ _

/-- The names before the last one. -/
theorem dropLast_names {p : Path} {above : List String} {name : String}
    (hp : p.pieces = above ++ [name]) (hn : isIdle name = false) :
    p.names.dropLast = namesIn above := by
  rw [names_of_pieces hp hn, List.dropLast_concat]

/-- A path with a last name does not lead to what is above that name. -/
theorem not_prefix_of_pieces {p : Path} {above : List String} {name : String}
    (hp : p.pieces = above ++ [name]) (hn : isIdle name = false) : ¬ p.names <+: namesIn above := by
  intro h
  have hlength := h.length_le
  rw [names_of_pieces hp hn, List.length_append] at hlength
  exact Nat.not_succ_le_self _ hlength

/-! ### Texts of paths -/

/-- The pieces of a path joined are its text. -/
theorem join_pieces (p : Path) : "/".intercalate p.pieces = p.text :=
  join_divide rfl p.text

/-- A path has a last piece. -/
theorem exists_pieces_eq_append (p : Path) : ∃ above last, p.pieces = above ++ [last] :=
  ⟨_, _, (List.dropLast_concat_getLast (divide_ne_nil '/' p.text)).symm⟩

/-- Pieces without slashes are the pieces of the text that they make up. -/
theorem pieces_join {pieces : List String} (hne : pieces ≠ [])
    (h : ∀ piece ∈ pieces, '/' ∉ piece.toList) : Path.pieces ⟨"/".intercalate pieces⟩ = pieces :=
  divide_join rfl hne h

/-! ### Trimmed pieces -/

private theorem dropIdle_prefix_self (pieces : List String) :
    trimPieces.dropIdle pieces <+: pieces := by
  induction pieces with
  | nil => exact List.prefix_rfl
  | cons piece rest ih =>
    rw [trimPieces.dropIdle]
    split
    · split
      · exact List.nil_prefix
      · exact List.cons_prefix_cons.mpr ⟨rfl, List.nil_prefix⟩
    · exact List.cons_prefix_cons.mpr ⟨rfl, ih⟩

/-- Dropping idle pieces drops no name. -/
theorem namesIn_dropIdle (pieces : List String) :
    namesIn (trimPieces.dropIdle pieces) = namesIn pieces := by
  induction pieces with
  | nil => rfl
  | cons piece rest ih =>
    rw [trimPieces.dropIdle]
    split
    · next hnil =>
      have hrest : namesIn rest = [] := by rw [← ih, hnil]; rfl
      split
      · next hidle =>
        rw [namesIn_cons_of_idle ((isIdle_eq_true_iff piece).mpr hidle), hrest]
        rfl
      · next hidle =>
        have hname := (isIdle_eq_false_iff piece).mpr (not_or.mp hidle)
        rw [namesIn_cons_of_name hname, namesIn_cons_of_name hname, hrest]
        rfl
    · rw [namesIn_cons piece rest, ← ih, ← namesIn_cons]

/-- What is left of pieces ends in a name. -/
theorem dropIdle_cases (pieces : List String) : trimPieces.dropIdle pieces = [] ∨
    ∃ above name, trimPieces.dropIdle pieces = above ++ [name] ∧ isIdle name = false := by
  induction pieces with
  | nil => exact .inl rfl
  | cons piece rest ih =>
    rw [trimPieces.dropIdle]
    split
    · split
      · exact .inl rfl
      · next hidle =>
        exact .inr ⟨[], piece, rfl, (isIdle_eq_false_iff piece).mpr (not_or.mp hidle)⟩
    · next hne =>
      obtain ⟨above, name, heq, hname⟩ := ih.resolve_left hne
      exact .inr ⟨piece :: above, name, by rw [heq]; rfl, hname⟩

/-- Pieces that end in a name stay as they are. -/
theorem dropIdle_append_name (above : List String) {name : String} (hn : isIdle name = false) :
    trimPieces.dropIdle (above ++ [name]) = above ++ [name] := by
  induction above with
  | nil =>
    rw [List.nil_append, trimPieces.dropIdle, trimPieces.dropIdle]
    exact if_neg (not_or.mpr ((isIdle_eq_false_iff name).mp hn))
  | cons piece above ih =>
    rw [List.cons_append, trimPieces.dropIdle, ih]
    split
    · next heq => simp at heq
    · rfl

/-- Pieces are trimmed at the end only. -/
theorem trimPieces_prefix_self (pieces : List String) : trimPieces pieces <+: pieces := by
  cases pieces with
  | nil => exact List.prefix_rfl
  | cons piece rest =>
    rw [trimPieces]
    split
    · split
      · exact List.nil_prefix
      · exact List.cons_prefix_cons.mpr ⟨rfl, List.nil_prefix⟩
    · exact List.cons_prefix_cons.mpr ⟨rfl, dropIdle_prefix_self rest⟩

/-- Trimming pieces drops no name. -/
theorem namesIn_trimPieces (pieces : List String) :
    namesIn (trimPieces pieces) = namesIn pieces := by
  cases pieces with
  | nil => rfl
  | cons piece rest =>
    rw [namesIn_cons, ← namesIn_dropIdle rest, trimPieces]
    split
    · next hnil =>
      rw [hnil]
      split
      · next hempty =>
        subst hempty
        rfl
      · exact (List.append_nil _).symm
    · exact namesIn_cons piece _

/-- There is nothing to trim behind a name. -/
theorem trimPieces_append_name (above : List String) {name : String} (hn : isIdle name = false) :
    trimPieces (above ++ [name]) = above ++ [name] := by
  cases above with
  | nil => exact if_neg ((isIdle_eq_false_iff name).mp hn).1
  | cons piece above =>
    rw [List.cons_append, trimPieces, dropIdle_append_name above hn]
    split
    · next heq => simp at heq
    · rfl

/-- Trimmed pieces are none, a dot alone, or end in a name. -/
theorem trimPieces_cases (pieces : List String) : trimPieces pieces = [] ∨
    trimPieces pieces = ["."] ∨
    ∃ above name, trimPieces pieces = above ++ [name] ∧ isIdle name = false := by
  cases pieces with
  | nil => exact .inl rfl
  | cons piece rest =>
    rw [trimPieces]
    split
    · split
      · exact .inl rfl
      · next hne =>
        by_cases hdot : piece = "."
        · exact .inr (.inl (by rw [hdot]))
        · exact .inr (.inr ⟨[], piece, rfl, (isIdle_eq_false_iff piece).mpr ⟨hne, hdot⟩⟩)
    · next hne =>
      obtain ⟨above, name, heq, hname⟩ := (dropIdle_cases rest).resolve_left hne
      exact .inr (.inr ⟨piece :: above, name, by rw [heq]; rfl, hname⟩)

/-! ### The path above -/

/-- A path without a needless end: it has no text, is the top or a dot, or ends in a name. -/
inductive IsTrim (p : Path) : Prop where
  | empty (h : p.text = "")
  | top (h : p.text = "/")
  | dot (h : p.pieces = ["."])
  | name (above : List String) (name : String) (h : p.pieces = above ++ [name])
    (hn : isIdle name = false)

/-- A path whose pieces are trimmed ones has no needless end. -/
theorem isTrim_of_pieces {p : Path} {pieces : List String} (hne : trimPieces pieces ≠ [])
    (hp : p.pieces = trimPieces pieces) : IsTrim p := by
  rcases trimPieces_cases pieces with hnil | hdot | ⟨above, name, heq, hname⟩
  · exact absurd hnil hne
  · exact .dot (hp.trans hdot)
  · exact .name above name (hp.trans heq) hname

/-- Trimmed pieces of a path are the pieces of a path, unless there are none. -/
theorem pieces_join_trimPieces {pieces : List String} (hne : trimPieces pieces ≠ [])
    (h : ∀ piece ∈ pieces, '/' ∉ piece.toList) :
    Path.pieces ⟨"/".intercalate (trimPieces pieces)⟩ = trimPieces pieces :=
  pieces_join hne fun piece hpiece ↦ h piece ((trimPieces_prefix_self pieces).subset hpiece)

/-- A path begins at the top if what begins its text does. -/
theorem isAbsolute_of_start {p q : Path} {rest : String} (h : p.text = q.text ++ rest)
    (hne : q.text ≠ "") : q.isAbsolute = p.isAbsolute := by
  rw [isAbsolute, isAbsolute, h, String.toList_append]
  cases hcs : q.text.toList with
  | nil => exact absurd (String.toList_inj.mp hcs) hne
  | cons c cs => rfl

/-- The pieces of a path that has no text. -/
theorem pieces_of_empty {p : Path} (h : p.text = "") : p.pieces = [""] := by
  rw [pieces, h]
  decide

/-- The pieces of the top. -/
theorem pieces_of_top {p : Path} (h : p.text = "/") : p.pieces = ["", ""] := by
  rw [pieces, h]
  decide

/-- The path above one whose last name stands behind some pieces: its text begins the text of that
path, both begin alike, its names are those among the pieces, and so are its pieces unless it is the
top or has no text. -/
structure IsAbove (p q : Path) (above : List String) : Prop where
  names : q.names = namesIn above
  trim : IsTrim q
  start : ∃ rest, p.text = q.text ++ rest
  isAbsolute : q.isAbsolute = p.isAbsolute
  pieces : (q.text = "" ∨ q.text = "/") ∨ q.pieces <+: above

/-- Trimmed pieces of a path are the pieces of the path that they are joined to. -/
private theorem pieces_join_above {p : Path} {above idle : List String} {name : String}
    (hpieces : above ++ [name] ++ idle = p.pieces) (hne : trimPieces above ≠ []) :
    Path.pieces ⟨"/".intercalate (trimPieces above)⟩ = trimPieces above := by
  apply pieces_join_trimPieces hne
  intro piece hpiece
  have hin : piece ∈ p.pieces := by
    rw [← hpieces]
    exact List.mem_append_left _ (List.mem_append_left _ hpiece)
  exact not_mem_of_mem_divide hin

/-- Trimmed pieces are not joined to the empty path, which has one piece and is not trimmed. -/
private theorem join_trimPieces_ne_empty {pieces : List String} (hne : trimPieces pieces ≠ [])
    (hpieces : Path.pieces ⟨"/".intercalate (trimPieces pieces)⟩ = trimPieces pieces) :
    "/".intercalate (trimPieces pieces) ≠ "" := by
  intro hempty
  rw [pieces_of_empty (p := ⟨"/".intercalate (trimPieces pieces)⟩) hempty] at hpieces
  rcases trimPieces_cases pieces with hnil | hdot | ⟨before, last, heq, hlast⟩
  · exact hne hnil
  · rw [hdot] at hpieces
    simp at hpieces
  · rw [heq] at hpieces
    have h := congrArg List.getLast? hpieces
    rw [List.getLast?_concat] at h
    cases h
    cases hlast

/-- The path above one that ends in a name, needless pieces apart. -/
theorem exists_parent?_of_trimPieces {p : Path} {above : List String} {name : String}
    (hkept : trimPieces p.pieces = above ++ [name]) :
    ∃ q, p.parent? = some q ∧ IsAbove p q above := by
  have hnames := namesIn_trimPieces above
  obtain ⟨idle, hidle⟩ := trimPieces_prefix_self p.pieces
  rw [hkept] at hidle
  rw [parent?, hkept]
  split
  · next heq => simp at heq
  rw [List.dropLast_concat]
  cases htrim : trimPieces above with
  | nil =>
    rw [htrim] at hnames
    cases ha : p.isAbsolute with
    | false =>
      refine ⟨⟨""⟩, rfl, ?_, .empty rfl, ⟨p.text, ?_⟩, ha.symm, .inl (.inl rfl)⟩
      · rw [← hnames, names, pieces_of_empty rfl]
        rfl
      · rw [String.empty_append]
    | true =>
      refine ⟨⟨"/"⟩, rfl, ?_, .top rfl, ?_, ha.symm, .inl (.inr rfl)⟩
      · rw [← hnames, names, pieces_of_top rfl]
        rfl
      · obtain ⟨cs, hcs⟩ := List.head?_eq_some_iff.mp (beq_iff_eq.mp ha)
        refine ⟨String.ofList cs, String.toList_inj.mp ?_⟩
        simp [hcs]
  | cons first rest =>
    have hne : trimPieces above ≠ [] := by simp [htrim]
    obtain ⟨dropped, hsplit⟩ := trimPieces_prefix_self above
    have hpieces := pieces_join_above hidle hne
    have hstart : p.text = "/".intercalate (trimPieces above) ++
        ("/" ++ "/".intercalate (dropped ++ [name] ++ idle)) := by
      rw [← join_pieces p, ← hidle, ← hsplit, List.append_assoc, List.append_assoc,
        String.intercalate_append_of_ne_nil hne (by simp), hsplit, String.append_assoc,
        List.append_assoc]
    refine ⟨⟨"/".intercalate (trimPieces above)⟩, by rw [htrim], ?_, isTrim_of_pieces hne hpieces,
      ⟨_, hstart⟩, isAbsolute_of_start hstart (join_trimPieces_ne_empty hne hpieces), .inr ?_⟩
    · rw [names, hpieces, hnames]
    · rw [hpieces]
      exact trimPieces_prefix_self above

/-- The path above one that ends in a name. -/
theorem exists_parent? {p : Path} {above : List String} {name : String}
    (hp : p.pieces = above ++ [name]) (hn : isIdle name = false) :
    ∃ q, p.parent? = some q ∧ IsAbove p q above :=
  exists_parent?_of_trimPieces (by rw [hp, trimPieces_append_name above hn])

/-- A piece of the path above is empty or among those before the name. -/
theorem IsAbove.mem_pieces {p q : Path} {above : List String} (h : IsAbove p q above)
    {piece : String} (hpiece : piece ∈ q.pieces) : piece = "" ∨ piece ∈ above := by
  rcases h.pieces with (hempty | htop) | hstart
  · rw [pieces_of_empty hempty] at hpiece
    exact .inl (List.mem_singleton.mp hpiece)
  · rw [pieces_of_top htop] at hpiece
    exact .inl (by simpa using hpiece)
  · exact .inr (hstart.subset hpiece)

end KeyHarvest.Path
