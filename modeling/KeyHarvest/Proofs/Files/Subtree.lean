import KeyHarvest.Files.Walk
import KeyHarvest.Proofs.Files.Components
import KeyHarvest.Proofs.Files.Directories

/-!
# What is below a directory

What stands at or below a directory is told by where paths lead (`AtOrBelow`), what a walk lists by
how they are written (`goesOn_of_mem_walk`). The two meet for paths that go down from one stem,
wherever that leads (`GoesDown`): where a path leads depends on its names alone, and those of the
stem lead to one place. So a path that leads to somewhere at or below a directory starts with the
path of that directory if both begin alike (`AtOrBelow.startsWith_iff`).
-/

namespace KeyHarvest.FileTree

open KeyHarvest.Path

/-! ### The way along the names of a path -/

/-- Some idle pieces are dropped. -/
inductive Thinned : List String → List String → Prop where
  | nil : Thinned [] []
  | keep (piece : String) {pieces kept : List String} (h : Thinned pieces kept) :
    Thinned (piece :: pieces) (piece :: kept)
  | drop {piece : String} {pieces kept : List String} (hi : isIdle piece = true)
    (h : Thinned pieces kept) : Thinned (piece :: pieces) kept

/-- The names among pieces are left when the idle ones are dropped. -/
theorem thinned_namesIn (pieces : List String) : Thinned pieces (namesIn pieces) := by
  induction pieces with
  | nil => exact .nil
  | cons piece rest ih =>
    cases hi : isIdle piece with
    | true =>
      rw [namesIn_cons_of_idle hi]
      exact .drop hi ih
    | false =>
      rw [namesIn_cons_of_name hi]
      exact .keep piece ih

/-- Pieces may be dropped behind others. -/
theorem Thinned.append_left {pieces kept : List String} (h : Thinned pieces kept)
    (before : List String) : Thinned (before ++ pieces) (before ++ kept) := by
  induction before with
  | nil => exact h
  | cons piece before ih => exact .keep piece ih

section Way

variable {t : FileTree} {here names : Names}

private theorem resolveWith_thinned
    {through through' : Names → List String → Except FileError Place}
    (hthrough : ∀ here pieces kept, Thinned pieces kept →
      through here pieces = .ok (.found names) → through' here kept = .ok (.found names))
    {pieces kept : List String} (hthin : Thinned pieces kept)
    (h : t.resolveWith true through here pieces = .ok (.found names)) :
    t.resolveWith true through' here kept = .ok (.found names) := by
  induction hthin generalizing here with
  | nil => exact h
  | keep piece hthin ih =>
    obtain ⟨hdir, hleads⟩ := resolveWith_cons_eq_ok_iff.mp h
    refine resolveWith_cons_eq_ok_iff.mpr ⟨hdir, ?_⟩
    cases hleads with
    | idle hp h => exact .idle hp (ih h)
    | up hp h => exact .up hp (ih h)
    | free _ _ _ h => cases h
    | link _ _ hr _ => cases hr.2
    | behindLink hp he _ ht h =>
      exact .behindLink hp he (by simp) ht (hthrough _ _ _ (hthin.append_left _) h)
    | entry hp he hl h => exact .entry hp he hl (ih h)
  | drop hi _ ih =>
    obtain ⟨hdir, -⟩ := resolveWith_cons_eq_ok_iff.mp h
    rw [resolveWith_cons_of_idle hdir hi] at h
    exact ih h

/-- Pieces lead where they do without the idle ones. -/
theorem resolvePieces_thinned {links : Nat} {pieces kept : List String}
    (hthin : Thinned pieces kept)
    (h : t.resolvePieces true links here pieces = .ok (.found names)) :
    t.resolvePieces true links here kept = .ok (.found names) := by
  induction links generalizing here pieces kept with
  | zero =>
    rw [resolvePieces] at h ⊢
    refine resolveWith_thinned (fun _ _ _ _ h ↦ ?_) hthin h
    cases h
  | succ links ih =>
    rw [resolvePieces] at h ⊢
    refine resolveWith_thinned ?_ hthin h
    intro _ _ _ hthin h
    exact ih hthin h

end Way

/-! ### Paths that go down -/

/-- A path leads to what another one leads to, or to something below that. -/
def AtOrBelow (t : FileTree) (q dir : Path) : Prop :=
  ∃ names above, t.locate true q = .ok names ∧ t.locate true dir = .ok above ∧ above <+: names

/-- A path goes down from a stem, which leads to some entry: it has the names of the stem and then
others, none of which leads up, and no link stands on their way. -/
def GoesDown (t : FileTree) (stem p : Path) : Prop :=
  p.isAbsolute = stem.isAbsolute ∧ ∃ here names, t.locate true stem = .ok here ∧
    p.names = stem.names ++ names ∧ ".." ∉ names ∧ t.Unlinked here names

section Down

variable {t : FileTree} {p stem dir : Path} {names here : Names}

/-- A path that leads to an entry can be looked up. -/
theorem checkPath_of_locate {follow : Bool} (h : t.locate follow p = .ok names) :
    checkPath p = .ok () :=
  ((locate_eq_ok_iff ..).mp h).1

/-- A path that leads to an entry has text. -/
theorem text_ne_empty_of_locate {follow : Bool} (h : t.locate follow p = .ok names) :
    p.text ≠ "" :=
  ((checkPath_eq_ok_iff p).mp (checkPath_of_locate h)).2.1

/-- The names of a path lead where the path does. -/
theorem resolvePieces_names_of_locate (h : t.locate true p = .ok names) :
    t.resolvePieces true maxLinks (t.origin p) p.names = .ok (.found names) :=
  resolvePieces_thinned (thinned_namesIn p.pieces) ((locate_eq_ok_iff ..).mp h).2

/-- What goes down from a stem leads to names below the place of the stem, if it leads anywhere. -/
theorem eq_append_of_locate {rest : List String} (hstem : t.locate true stem = .ok here)
    (habs : p.isAbsolute = stem.isAbsolute) (hnames : p.names = stem.names ++ rest)
    (hup : ".." ∉ rest) (hlink : t.Unlinked here rest) (h : t.locate true p = .ok names) :
    names = here ++ rest := by
  have hrest : namesIn rest = rest := by
    refine List.filter_eq_self.mpr fun name hname ↦ ?_
    have hmem : name ∈ p.names := hnames ▸ List.mem_append_right _ hname
    exact (List.mem_filter.mp hmem).2
  have horigin : t.origin p = t.origin stem := t.origin_congr habs
  have hplace := resolvePieces_names_of_locate hstem
  have hway := resolvePieces_names_of_locate h
  rw [hnames, horigin] at hway
  by_cases hnil : rest = []
  · rw [hnil, List.append_nil, hplace] at hway
    cases hway
    rw [hnil, List.append_nil]
  obtain ⟨mid, hmid, -, links, hdown⟩ := exists_of_resolvePieces_append hnil hway
  rw [hplace] at hmid
  cases hmid
  rw [← hrest] at hlink
  calc names = here ++ namesIn rest := by
        cases links <;> exact eq_of_resolveWith_found hup hlink hdown
    _ = here ++ rest := by rw [hrest]

/-- Of two paths that go down from one stem, one of which leads to somewhere at or below the other,
the lower one starts with the upper one if both begin alike. -/
theorem AtOrBelow.startsWith_iff (h : t.AtOrBelow p dir) (hp : t.GoesDown stem p)
    (hdir : t.GoesDown stem dir) : p.startsWith dir = true ↔ p.opening = dir.opening := by
  obtain ⟨names, above, hnames, habove, hprefix⟩ := h
  obtain ⟨habs, here, down, hstem, hdown, hup, hlink⟩ := hp
  obtain ⟨habs', here', down', hstem', hdown', hup', hlink'⟩ := hdir
  obtain rfl : here = here' := Except.ok.inj (hstem.symm.trans hstem')
  rw [eq_append_of_locate hstem habs hdown hup hlink hnames,
    eq_append_of_locate hstem habs' hdown' hup' hlink' habove,
    List.prefix_append_right_inj] at hprefix
  rw [Path.startsWith_iff (text_ne_empty_of_locate hnames) (text_ne_empty_of_locate habove), hdown,
    hdown', List.prefix_append_right_inj]
  exact and_iff_left hprefix

end Down

/-! ### What a walk lists -/

/-- What is listed below a path goes on from it. -/
theorem goesOn_of_mem_below {t : FileTree} {p q : Path} (hp : p.text ≠ "") {depth : Nat}
    (h : .ok q ∈ t.below p depth) : GoesOn p q := by
  induction depth generalizing p with
  | zero => cases h
  | succ depth ih =>
    rw [below] at h
    split at h
    · cases List.mem_singleton.mp h
    obtain ⟨name, -, h⟩ := List.mem_flatMap.mp h
    have hchild : GoesOn p (p.child name) := goesOn_join hp _
    rcases List.mem_cons.mp h with heq | h
    · cases heq
      exact hchild
    · split at h
      · exact hchild.trans (ih hchild.text_ne_empty h)
      · cases h

/-- A walk begins where its root leads, and lists the root and what is below. -/
theorem cases_of_mem_walk {t : FileTree} {root q : Path} (h : .ok q ∈ t.walk root) :
    (∃ names, t.locate false root = .ok names) ∧
      (q = root ∨ .ok q ∈ t.below root (t.depth + 1)) := by
  have listed (h : .ok q ∈ (.ok root :: t.below root (t.depth + 1) :
      List (Except WalkError Path))) : q = root ∨ .ok q ∈ t.below root (t.depth + 1) :=
    (List.mem_cons.mp h).imp_left Except.ok.inj
  have alone (h : .ok q ∈ [(.ok root : Except WalkError Path)]) : q = root :=
    Except.ok.inj (List.mem_singleton.mp h)
  rw [walk] at h
  split at h
  · cases List.mem_singleton.mp h
  next hlocate =>
  refine ⟨⟨_, hlocate⟩, ?_⟩
  split at h
  · exact listed h
  · split at h
    · cases List.mem_singleton.mp h
    split at h
    · exact listed h
    · exact .inl (alone h)
  · exact .inl (alone h)

/-- What a walk lists goes on from where the walk begins. -/
theorem goesOn_of_mem_walk {t : FileTree} {root q : Path} (hroot : root.text ≠ "")
    (h : .ok q ∈ t.walk root) : GoesOn root q := by
  obtain ⟨-, rfl | hq⟩ := cases_of_mem_walk h
  · exact .refl hroot
  · exact goesOn_of_mem_below hroot hq

end KeyHarvest.FileTree
