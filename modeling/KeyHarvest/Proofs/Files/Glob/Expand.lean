import KeyHarvest.Files.Glob.Expand
import KeyHarvest.Proofs.Files.Glob.Grammar
import KeyHarvest.Proofs.Files.Subtree

/-!
# Results of glob patterns

An expansion begins at the root or at the current directory, whose dot it leaves out of the paths it
makes. From there on every step goes on from the path before it, so no result of a pattern with
wildcards begins with a dot (`bare_of_mem_expand`), provided that no wildcard stands for the dot
itself. This holds whether the pattern begins with a dot or not.

A pattern is read piece by piece, so it can be expanded exactly if its pieces are patterns
(`exists_expand_eq_ok_iff`).
-/

namespace KeyHarvest

namespace FileTree

/-- All names in the tree are names of entries: none is empty, a dot or two dots, or has a slash. -/
def WellNamed (t : FileTree) : Prop :=
  ∀ names ∈ t.entries.keys, ∀ name ∈ names,
    name ≠ "" ∧ name ≠ "." ∧ name ≠ ".." ∧ '/' ∉ name.toList

instance (t : FileTree) : Decidable t.WellNamed :=
  inferInstanceAs (Decidable (∀ names ∈ t.entries.keys, ∀ name ∈ names, _))

end FileTree

namespace Glob

open KeyHarvest.Path Text

/-! ### Paths below a path -/

/-- A path without a leading dot is not the current directory. -/
theorem isCurrent_of_bare {p : Path} (hp : Bare p) : isCurrent p = false := by
  rw [Bool.eq_false_iff]
  intro hc
  apply hp.opening_ne
  rw [opening_of_sameAs hc]
  decide

/-- What is below a path without a leading dot has none. -/
theorem bare_below {p : Path} (hp : Bare p) (name : String) : Bare (below p name) := by
  rw [below, isCurrent_of_bare hp]
  exact hp.goesOn (goesOn_join hp.text_ne_empty _)

/-- The path of an entry of the current directory, or of one whose path has no leading dot, has
none. -/
theorem bare_of_mem_children {t : FileTree} (hn : t.WellNamed) {p : Path} {names : Names}
    {name : String} (hp : Bare p ∨ isCurrent p = true) (h : name ∈ t.children names) :
    Bare (below p name) := by
  rcases hp with hp | hp
  · exact bare_below hp name
  · obtain ⟨whole, hwhole, hlast⟩ := List.mem_filterMap.mp h
    split at hlast
    · obtain ⟨hempty, hdot, -, hslash⟩ := hn whole hwhole name (List.mem_of_getLast? hlast)
      rw [Glob.below, if_pos hp]
      exact bare_of_name hempty hdot hslash
    · cases hlast

/-- A path that leads to an entry or a link has text. -/
theorem text_ne_empty_of_leads {t : FileTree} {p : Path} (h : leads t p = true) : p.text ≠ "" := by
  rcases (Bool.or_eq_true _ _).mp h with h | h
  · rw [FileTree.pathExists] at h
    split at h
    · next hlookup =>
      rw [FileTree.lookup, bind_eq_ok_iff] at hlookup
      obtain ⟨names, hlocate, -⟩ := hlookup
      exact FileTree.text_ne_empty_of_locate hlocate
    · cases h
  · cases hlocate : t.locate false p with
    | error => rw [hlocate] at h; cases h
    | ok names => exact FileTree.text_ne_empty_of_locate hlocate

/-! ### Steps of an expansion -/

/-- A piece of a pattern: a name, or wildcards that do not stand for a dot or two dots alone. -/
structure IsPiece (g : Glob) : Prop where
  not_slash : ∀ name, g.literal? = some name → '/' ∉ name.toList
  not_dots : g.literal? = none → dotEntries g = []

/-- A path without a leading dot, or the current directory with wildcards still to match. -/
def LeavesDot (gs : List Glob) (p : Path) : Prop :=
  Bare p ∨ isCurrent p = true ∧ ∃ g ∈ gs, g.literal? = none

section Steps

variable {t : FileTree} {directories : Bool}

/-- A step to a name in the pattern leaves the dot, unless it leads there. -/
theorem LeavesDot.below {g : Glob} {rest : List Glob} {p : Path} {name : String}
    (hp : LeavesDot (g :: rest) p) (hg : IsPiece g) (hname : g.literal? = some name)
    (hthere : (name = "." ∨ name = "..") ∨ (Glob.below p name).text ≠ "") :
    LeavesDot rest (Glob.below p name) := by
  rcases hp with hp | ⟨hcurrent, wild, hmem, hwild⟩
  · exact .inl (bare_below hp name)
  · rw [Glob.below, if_pos hcurrent] at hthere ⊢
    by_cases hdot : name = "."
    · subst hdot
      refine .inr ⟨by decide, wild, (List.mem_cons.mp hmem).resolve_left ?_, hwild⟩
      rintro rfl
      rw [hname] at hwild
      cases hwild
    · have hempty : name ≠ "" := by
        rcases hthere with (rfl | rfl) | h
        · decide
        · decide
        · exact h
      exact .inl (bare_of_name hempty hdot (hg.not_slash name hname))

mutual

/-- Whatever is matched within a path that leaves the dot does not begin with one. -/
theorem bare_of_mem_enter (hn : t.WellNamed) (fuel : Nat) (gs : List Glob) {p r : Path}
    (hgs : ∀ g ∈ gs, IsPiece g) (hp : LeavesDot gs p) (h : r ∈ enter t directories fuel gs p) :
    Bare r := by
  match fuel, gs with
  | 0, _ => cases h
  | _ + 1, [] => cases h
  | fuel + 1, g :: rest =>
    obtain ⟨hg, hrest⟩ := List.forall_mem_cons.mp hgs
    rw [enter] at h
    split at h
    · next name hname =>
      simp only at h
      split at h
      · next hdots =>
        split at h
        · exact bare_of_mem_settle hn fuel _ hrest (hp.below hg hname (.inl hdots)) h
        · cases h
      · split at h
        · next hleads =>
          have htext := text_ne_empty_of_leads hleads
          exact bare_of_mem_settle hn fuel _ hrest (hp.below hg hname (.inr htext)) h
        · cases h
    · next hwild =>
      split at h
      · rw [hg.not_dots hwild, List.flatMap_nil, List.nil_append] at h
        obtain ⟨name, hname, h⟩ := List.mem_flatMap.mp h
        exact bare_of_mem_visit hn fuel _ hgs
          (bare_of_mem_children hn (hp.imp_right And.left) hname) h
      · cases h

/-- What pieces match from a path that leaves the dot does not begin with one. -/
theorem bare_of_mem_settle (hn : t.WellNamed) (fuel : Nat) (gs : List Glob) {p r : Path}
    (hgs : ∀ g ∈ gs, IsPiece g) (hp : LeavesDot gs p) (h : r ∈ settle t directories fuel gs p) :
    Bare r := by
  match fuel, gs with
  | 0, _ => cases h
  | _ + 1, [] =>
    simp only [settle] at h
    split at h
    · rw [List.mem_singleton.mp h]
      exact hp.resolve_right fun ⟨_, _, hmem, _⟩ ↦ List.not_mem_nil hmem
    · cases h
  | fuel + 1, g :: rest => exact bare_of_mem_enter hn fuel _ hgs hp h

/-- What pieces match among a path without a leading dot has none. -/
theorem bare_of_mem_visit (hn : t.WellNamed) (fuel : Nat) (gs : List Glob) {p r : Path}
    (hgs : ∀ g ∈ gs, IsPiece g) (hp : Bare p) (h : r ∈ visit t directories fuel gs p) :
    Bare r := by
  match fuel, gs with
  | 0, _ => cases h
  | _ + 1, [] => cases h
  | fuel + 1, g :: rest =>
    obtain ⟨hg, hrest⟩ := List.forall_mem_cons.mp hgs
    rw [visit] at h
    split at h
    · have hnext (g' : Glob) (hmem : g' ∈ rest.dropWhile isRecursive) : IsPiece g' :=
        hrest g' ((List.dropWhile_suffix _).subset hmem)
      split at h
      · split at h
        · rcases List.mem_cons.mp h with rfl | h
          · exact hp
          · exact bare_of_mem_enter hn fuel _ (by simpa using hg) (.inl hp) h
        · cases h
      · rcases List.mem_append.mp h with h | h
        · exact bare_of_mem_matchName hn fuel _ hnext hp h
        · split at h
          · exact bare_of_mem_enter hn fuel _ (List.forall_mem_cons.mpr ⟨hg, hnext⟩) (.inl hp) h
          · cases h
    · exact bare_of_mem_matchName hn fuel _ hgs hp h

/-- What pieces match from the name of a path without a leading dot has none. -/
theorem bare_of_mem_matchName (hn : t.WellNamed) (fuel : Nat) (gs : List Glob) {p r : Path}
    (hgs : ∀ g ∈ gs, IsPiece g) (hp : Bare p) (h : r ∈ matchName t directories fuel gs p) :
    Bare r := by
  match fuel, gs with
  | 0, _ => cases h
  | _ + 1, [] => cases h
  | fuel + 1, g :: rest =>
    rw [matchName] at h
    split at h
    · exact bare_of_mem_settle hn fuel _ (List.forall_mem_cons.mp hgs).2 (.inl hp) h
    · cases h

end

end Steps

/-! ### Whole expansions -/

/-- Whether no wildcards of a pattern stand for a dot or two dots alone, as those of `.*` do. -/
def sparesDots (pattern : Path) : Bool :=
  pattern.pieces.all fun piece ↦
    match parse piece with
    | .ok g => g.literal?.isSome || (dotEntries g).isEmpty
    | .error _ => true

/-- A piece of a pattern that spares dots is one as an expansion takes it. -/
theorem isPiece_of_parse {pattern : Path} (hdots : sparesDots pattern = true) {piece : String}
    (hpiece : piece ∈ pattern.pieces) {g : Glob} (hg : parse piece = .ok g) : IsPiece g := by
  constructor
  · intro name hname
    rw [(eq_of_literal?_parse hg hname).1]
    exact not_mem_of_mem_divide hpiece
  · intro hwild
    have h := List.all_eq_true.mp hdots piece hpiece
    rw [hg] at h
    simpa [hwild] using h

/-- What a pattern is divided into are some of its pieces. -/
theorem patternPieces_subset (pattern : Path) :
    patternPieces pattern.text.toList ⊆ pattern.pieces := by
  rw [patternPieces]
  split
  · exact (List.dropLast_prefix _).subset
  · exact List.Subset.refl _

/-- A pattern is divided into all its pieces that are not empty. -/
theorem mem_patternPieces {pattern : Path} {piece : String} (hne : piece ≠ "")
    (h : piece ∈ pattern.pieces) : piece ∈ patternPieces pattern.text.toList := by
  simp only [patternPieces]
  split
  · next hlast =>
    obtain ⟨before, hbefore⟩ := List.getLast?_eq_some_iff.mp hlast
    rw [Path.pieces, hbefore, List.mem_append, List.mem_singleton] at h
    rw [hbefore, List.dropLast_concat]
    exact h.resolve_right hne
  · exact h

/-- A pattern is expanded from the top or from the current directory. -/
def start (pattern : Path) : Path :=
  if pattern.isAbsolute then ⟨"/"⟩ else ⟨"."⟩

/-- What of a pattern is expanded from there. -/
def behindTop (pattern : Path) : Path :=
  if pattern.isAbsolute then ⟨String.ofList (pattern.text.toList.drop 1)⟩ else pattern

/-- The steps of an expansion. -/
theorem expand_eq_ok_iff (t : FileTree) (pattern : Path) (found : List Path) :
    expand t pattern = .ok found ↔ IsPattern pattern.text ∧
      ∃ globs, (patternPieces (behindTop pattern).text.toList).mapM parse = .ok globs ∧
        found = enter t (pattern.text.toList.getLast? == some '/') (maxSteps t globs.length) globs
          (start pattern) := by
  have hbehind : (behindTop pattern).text.toList =
      if pattern.isAbsolute then pattern.text.toList.drop 1 else pattern.text.toList := by
    rw [behindTop]
    split
    · exact String.toList_ofList
    · rfl
  simp only [expand, bind_eq_ok_iff, hbehind]
  constructor
  · rintro ⟨whole, hwhole, globs, hglobs, h⟩
    exact ⟨⟨whole, hwhole⟩, globs, hglobs, (Except.ok.inj h).symm⟩
  · rintro ⟨⟨whole, hwhole⟩, globs, hglobs, rfl⟩
    exact ⟨whole, hwhole, globs, hglobs, rfl⟩

/-- The pieces of a pattern from the top are an empty one and those behind the first slash. -/
theorem pieces_of_isAbsolute {pattern : Path} (ha : pattern.isAbsolute = true) :
    pattern.pieces = "" :: Path.pieces ⟨String.ofList (pattern.text.toList.drop 1)⟩ := by
  obtain ⟨cs, hcs⟩ := List.head?_eq_some_iff.mp (beq_iff_eq.mp ha)
  rw [Path.pieces, Path.pieces, hcs, String.toList_ofList, List.splitOn_cons_eq_if_modifyHead]
  simp

/-- Behind the top stand the pieces of a pattern, but for an empty one before the first slash. -/
theorem pieces_behindTop (pattern : Path) :
    pattern.pieces = (behindTop pattern).pieces ∨
      pattern.pieces = "" :: (behindTop pattern).pieces := by
  rw [behindTop]
  split
  · next ha => exact .inr (pieces_of_isAbsolute ha)
  · exact .inl rfl

/-- The empty text is a pattern. -/
theorem isPattern_empty : IsPattern "" :=
  ⟨⟨[]⟩, rfl⟩

/-- A pattern can be expanded if each of its pieces is a pattern. -/
theorem exists_expand_eq_ok_iff (t : FileTree) (pattern : Path) :
    (∃ found, expand t pattern = .ok found) ↔ ∀ piece ∈ pattern.pieces, IsPattern piece := by
  have hpieces : (∀ piece ∈ pattern.pieces, IsPattern piece) ↔
      ∀ piece ∈ patternPieces (behindTop pattern).text.toList, IsPattern piece := by
    have hbehind : (∀ piece ∈ pattern.pieces, IsPattern piece) ↔
        ∀ piece ∈ (behindTop pattern).pieces, IsPattern piece := by
      rcases pieces_behindTop pattern with h | h <;> simp [h, isPattern_empty]
    rw [hbehind]
    refine ⟨fun h piece hpiece ↦ h piece (patternPieces_subset _ hpiece), fun h piece hpiece ↦ ?_⟩
    by_cases hne : piece = ""
    · rw [hne]
      exact isPattern_empty
    · exact h piece (mem_patternPieces hne hpiece)
  simp only [expand_eq_ok_iff]
  constructor
  · rintro ⟨found, -, globs, hglobs, -⟩
    refine hpieces.mpr fun piece hpiece ↦ ?_
    obtain ⟨g, -, hg⟩ := (mapM_eq_ok hglobs).2 piece hpiece
    exact ⟨g, hg⟩
  · intro h
    obtain ⟨globs, hglobs⟩ := exists_mapM_eq_ok (hpieces.mp h)
    exact ⟨_, isPattern_of_pieces h, globs, hglobs, rfl⟩

/-- What a pattern with wildcards matches does not begin with a dot. -/
theorem bare_of_mem_expand {t : FileTree} (hn : t.WellNamed) {pattern : Path}
    (hwild : hasWildcard pattern.text = true) (hdots : sparesDots pattern = true)
    {found : List Path} (h : expand t pattern = .ok found) {r : Path} (hr : r ∈ found) :
    Bare r := by
  obtain ⟨-, globs, hglobs, rfl⟩ := (expand_eq_ok_iff ..).mp h
  obtain ⟨hout, hin⟩ := mapM_eq_ok hglobs
  have hpieces (g : Glob) (hg : g ∈ globs) : IsPiece g := by
    obtain ⟨piece, hpiece, hparse⟩ := hout g hg
    have hbehind := patternPieces_subset _ hpiece
    have hmem : piece ∈ pattern.pieces := by
      rcases pieces_behindTop pattern with h | h <;> simp [h, hbehind]
    exact isPiece_of_parse hdots hmem hparse
  refine bare_of_mem_enter hn _ _ hpieces ?_ hr
  rw [start]
  split
  · exact .inl ⟨by decide, by decide⟩
  next ha =>
  -- Some piece has a wildcard, so the dot at the start of the pattern is left.
  rw [behindTop, if_neg ha] at hin
  obtain ⟨c, hc, hcwild⟩ := List.any_eq_true.mp hwild
  have hslash : c ≠ '/' := by
    rintro rfl
    cases hcwild
  obtain ⟨piece, hpiece, hmem⟩ := exists_mem_divide hslash hc
  have hne : piece ≠ "" := by
    rintro rfl
    cases hmem
  obtain ⟨g, hg, hparse⟩ := hin piece (mem_patternPieces hne hpiece)
  refine .inr ⟨by decide, g, hg, Option.eq_none_iff_forall_ne_some.mpr fun name hname ↦ ?_⟩
  have hplain := (eq_of_literal?_parse hparse hname).2
  rw [hasWildcard, List.any_eq_false] at hplain
  exact hplain c hmem hcwild

end Glob

end KeyHarvest
