import KeyHarvest.Proofs.Files.Placing

/-!
# Files that are absent

Two trees that differ in one file, which one of them lacks, lead a path to the same place, but for a
path to the file: that one leads to a free name where the file is absent (`Lacks.resolve`). On its
way to its last name a path leads to a directory, so the path above it leads to one too, and making
directories along that makes none (`makeDirectories_above`). So a file is written in both trees
unless it may not be (`Lacks.writes`), and then they have the same entries (`Lacks.entry?_insert`).
-/

namespace KeyHarvest.FileTree

open KeyHarvest.Path

/-! ### The path above -/

section Above

variable {t : FileTree} {p : Path} {place : Place}

/-- What leads to a directory is not made once more. -/
theorem makeDirectory_of_isDirectory {above : List String} {name : String}
    (hpieces : p.pieces = above ++ [name]) (hn : isIdle name = false)
    (h : t.isDirectory p = true) : t.makeDirectory p = .error .alreadyExists := by
  obtain ⟨names, hplace, -⟩ :=
    (lookup_eq_ok_iff_leadsToEntry t p _).mp ((isDirectory_iff_lookup t p).mp h)
  obtain ⟨hcheck, dir, habove, -, links, hlast⟩ := exists_of_resolve (by simp) hpieces hplace
  obtain ⟨hdir, through, hleads⟩ := resolvePieces_cons_eq_ok hlast
  have henter := enterable_of_checkPiece hdir ((isIdle_eq_false_iff name).mp hn).1
  have hchecked : t.checkAbove p = .ok dir := by
    rw [checkAbove, splitLast_of_pieces hpieces hn]
    simp only [habove, ok_bind, henter.1, if_true, checkAccess_of_none henter.2]
  have hexists : name = ".." ∨ IsName name ∧ (t.entry? (dir ++ [name])).isSome = true := by
    cases hleads with
    | idle hp => simp [(isIdle_eq_true_iff name).mpr hp] at hn
    | up hp => exact .inl hp
    | free _ _ _ hplace => cases hplace
    | link _ _ hr => cases hr.2
    | behindLink hp he => exact .inr ⟨hp, by rw [he]; rfl⟩
    | entry hp he => exact .inr ⟨hp, by rw [he]; rfl⟩
  rw [makeDirectory, hcheck, ok_bind, hchecked, ok_bind, splitLast_of_pieces hpieces hn]
  rcases hexists with rfl | ⟨⟨hempty, hdot, hup, hlong⟩, hexists⟩
  · rfl
  · simp only [hempty, hdot, hup, or_self, if_false, Nat.not_lt.mpr hlong, hexists, if_true]

/-- Along a trim path to a directory no directory is made. -/
theorem makeDirectories_of_isDirectory (hr : t.Rooted) (htrim : IsTrim p)
    (h : p.text = "" ∨ t.isDirectory p = true) : t.makeDirectories p = (t, none) := by
  by_cases hne : p.text = ""
  · exact makeDirectoriesFrom_of_empty t hne _
  have hdir := h.resolve_left hne
  have start (hstart : IsStart p) : t.makeDirectories p = (t, none) := by
    obtain ⟨e, heq⟩ := makeDirectoriesFrom_of_isStart hr hstart p.pieces.length
    rwa [if_pos hdir] at heq
  cases htrim with
  | empty htext => exact absurd htext hne
  | top htop => exact start (.inl htop)
  | dot hdot => exact start (.inr hdot)
  | name above name hpieces hn =>
    have hmake := makeDirectory_of_isDirectory hpieces hn hdir
    rw [makeDirectories, makeDirectoriesFrom_of_ne hne (by rw [hmake]; simp), attempt, hmake]
    simp [hdir]

/-- The path above one that leads somewhere and ends in a name leads to a directory, so along it no
directory is made. -/
theorem makeDirectories_above (hr : t.Rooted) (h : t.resolve true p = .ok place)
    (hends : endsAsDirectory p = false) :
    t.makeDirectories (p.parent?.getD ⟨""⟩) = (t, none) := by
  obtain ⟨above, name, hpieces, hn⟩ := exists_pieces_of_ends hends
  obtain ⟨hcheck, -⟩ := exists_of_resolve (by simp) hpieces h
  obtain ⟨q, hq, habove⟩ := Path.exists_parent? hpieces hn
  have horigin : t.origin q = t.origin p := t.origin_congr habove.isAbsolute
  obtain ⟨rest, htext⟩ := habove.start
  rw [hq, Option.getD_some]
  refine makeDirectories_of_isDirectory hr habove.trim ?_
  refine (checkPath_of_start hcheck htext).imp id fun hqcheck ↦ ?_
  have hne := ((checkPath_eq_ok_iff q).mp hqcheck).2.1
  rw [isDirectory_iff_lookup, lookup_eq_ok_iff_leadsToEntry]
  rcases habove.pieces with (hempty | htop) | ⟨idle, hidle⟩
  · exact absurd hempty hne
  · -- The top is a directory whatever stands in it.
    refine ⟨[], ?_, t.entry?_nil⟩
    obtain rfl : q = ⟨"/"⟩ := congrArg Path.mk htop
    rfl
  · -- What stands between the path above and the name leads on from a directory.
    rw [← hidle, List.append_assoc] at hpieces
    obtain ⟨-, dir, hdir, hentry, -⟩ := exists_of_resolve (by simp) hpieces h
    exact ⟨dir, by rw [resolve, hqcheck, ok_bind, horigin, hdir], hentry⟩

/-- A path that leads to a free name ends in a name. -/
theorem endsAsDirectory_of_free {names : Names} (h : t.resolve true p = .ok (.free names)) :
    endsAsDirectory p = false := by
  obtain ⟨above, name, hpieces⟩ := p.exists_pieces_eq_append
  obtain ⟨-, dir, -, -, links, hlast⟩ := exists_of_resolve (by simp) hpieces h
  obtain ⟨-, through, hleads⟩ := resolvePieces_cons_eq_ok hlast
  have hname : IsName name := by
    cases hleads with
    | idle _ h => cases h
    | up _ h => cases h
    | free hp => exact hp
    | link hp => exact hp
    | behindLink hp => exact hp
    | entry _ _ _ h => cases h
  exact endsAsDirectory_of_pieces hpieces ((isIdle_eq_false_iff name).mpr ⟨hname.1, hname.2.1⟩)
    hname.2.2.1

/-- Where a path leads to names that a file can be put under, it is put there unless it may not be
written. -/
theorem write_of_writable (hends : endsAsDirectory p = false) (h : t.resolve true p = .ok place)
    (hw : t.Writable place.names) (content : ByteArray) :
    t.write p content = (t.checkAccess .write place.names >>= fun _ ↦
      .ok (t.insert place.names (.file content))) := by
  rw [write, checkPath_of_resolve h, ok_bind, hends, h, ok_bind]
  rcases hw.2 with he | ⟨old, he⟩ <;> simp [he]

end Above

/-! ### Absent files -/

/-- The names lead to a file in the second of two trees and to nothing in the first. The trees have
the same entries otherwise and are seen alike, from outside of the file. -/
structure Lacks (t u : FileTree) (names : Names) (content : ByteArray) : Prop where
  absent : t.entry? names = none
  present : u.entry? names = some (.file content)
  same : ∀ other, other ≠ names → t.entry? other = u.entry? other
  seenAlike : t.SeenAlike u
  outside : ¬ names <+: t.working

/-- A file put under a free name in a rooted tree is all that the tree lacked. -/
theorem lacks_insert {t : FileTree} (hr : t.Rooted) {names : Names} (h : t.entry? names = none)
    (content : ByteArray) : t.Lacks (t.insert names (.file content)) names content := by
  have hne : names ≠ [] := by
    rintro rfl
    cases h
  refine ⟨h, ?_, fun other hother ↦ ?_, seenAlike_insert _ _ _, fun hstart ↦ ?_⟩
  · rw [entry?_insert t hne, if_pos rfl]
  · rw [entry?_insert t hne, if_neg (Ne.symm hother)]
  · rw [hr.entry?_of_prefix hr.working hstart] at h
    cases h

namespace Lacks

variable {t u : FileTree} {names : Names} {content : ByteArray} (h : t.Lacks u names content)
include h

/-- The root is no file. -/
theorem ne_nil : names ≠ [] := by
  rintro rfl
  cases h.absent

/-- Whatever is no file stands in both trees. -/
theorem entry?_of_not_file {other : Names} {e : Entry} (he : u.entry? other = some e)
    (hf : ∀ old, e ≠ .file old) : t.entry? other = some e := by
  rw [h.same other, he]
  rintro rfl
  exact hf content (Option.some.inj (he.symm.trans h.present))

/-- What a path leads from is not below the file. -/
theorem not_prefix_origin {here : Names} (hhere : ¬ names <+: here) (p : Path) :
    ¬ names <+: p.origin here := by
  rw [Path.origin]
  split
  · simpa using h.ne_nil
  · exact hhere

/-- A piece that can be looked up where the file is can be looked up where it is not. -/
theorem checkPiece {here : Names} {piece : String} (hdir : u.checkPiece here piece = .ok ()) :
    t.checkPiece here piece = .ok () := by
  rw [checkPiece_eq_ok_iff] at hdir ⊢
  rw [← h.seenAlike.refusal?]
  exact ⟨h.entry?_of_not_file hdir.1 (by simp), hdir.2⟩

/-- Pieces that lead to the file lead to its free name without it, if this is so of the pieces
behind a link. The way never goes through the file. -/
theorem resolveWith {through through' : Names → List String → Except FileError Place}
    (hthrough : ∀ here pieces, ¬ names <+: here → through here pieces = .ok (.found names) →
      through' here pieces = .ok (.free names))
    {here : Names} (hhere : ¬ names <+: here) {pieces : List String}
    (hfound : u.resolveWith true through here pieces = .ok (.found names)) :
    t.resolveWith true through' here pieces = .ok (.free names) := by
  induction pieces generalizing here with
  | nil =>
    cases hfound
    exact absurd List.prefix_rfl hhere
  | cons piece rest ih =>
    obtain ⟨hdir, hleads⟩ := resolveWith_cons_eq_ok_iff.mp hfound
    refine resolveWith_cons_eq_ok_iff.mpr ⟨h.checkPiece hdir, ?_⟩
    cases hleads with
    | idle hp hon => exact .idle hp (ih hhere hon)
    | up hp hon =>
      exact .up hp (ih (fun hstart ↦ hhere (hstart.trans (List.dropLast_prefix here))) hon)
    | free _ _ _ hplace => cases hplace
    | link _ _ hr => cases hr.2
    | behindLink hp he hr ht hon =>
      have hbehind := hthrough _ _ (h.not_prefix_origin hhere _) hon
      exact .behindLink hp (h.entry?_of_not_file he (by simp)) hr ht hbehind
    | @entry hp e he hl hon =>
      by_cases hnext : names = here ++ [piece]
      · -- Nothing can follow the file.
        have hr : rest = [] := by
          cases rest with
          | nil => rfl
          | cons next rest =>
            have hfile := entry?_of_checkPiece (resolveWith_cons_eq_ok_iff.mp hon).1
            rw [← hnext, h.present] at hfile
            cases hfile
        exact .free hp (hnext ▸ h.absent) hr (congrArg Place.free hnext)
      · have hnot : ¬ names <+: here ++ [piece] := by
          rw [List.prefix_concat_iff, not_or]
          exact ⟨hnext, hhere⟩
        exact .entry hp (by rw [h.same _ (Ne.symm hnext), he]) hl (ih hnot hon)

/-- Pieces that lead to the file through links lead to its free name without it, through as many. -/
theorem resolvePieces {links : Nat} {here : Names} (hhere : ¬ names <+: here)
    {pieces : List String} (hfound : u.resolvePieces true links here pieces = .ok (.found names)) :
    t.resolvePieces true links here pieces = .ok (.free names) := by
  induction links generalizing here pieces with
  | zero =>
    refine h.resolveWith ?_ hhere hfound
    intro _ _ _ hthrough
    cases hthrough
  | succ links ih => exact h.resolveWith (fun _ _ hhere hfound ↦ ih hhere hfound) hhere hfound

variable {p : Path} (hp : u.locate true p = .ok names)
include hp

/-- A path to the file leads to its free name without it. -/
theorem resolve : u.resolve true p = .ok (.found names) ∧ t.resolve true p = .ok (.free names) := by
  have hplace := (locate_eq_ok_iff_resolve u p names).mp hp
  refine ⟨hplace, ?_⟩
  rw [FileTree.resolve, bind_eq_ok_iff] at hplace ⊢
  obtain ⟨⟨⟩, hcheck, hplace⟩ := hplace
  rw [h.seenAlike.origin] at hplace
  exact ⟨(), hcheck, h.resolvePieces (h.not_prefix_origin h.outside p) hplace⟩

omit h hp in
/-- What is written at a path to names that a file can be put under, behind directories that are
there. -/
private theorem writes_of_resolve (hr : t.Rooted) {place : Place}
    (hplace : t.resolve true p = .ok place) (hends : endsAsDirectory p = false)
    (hw : t.Writable place.names) (content' : ByteArray) :
    t.makeDirectories (p.parent?.getD ⟨""⟩) = (t, none) ∧ t.write p content' =
      (t.checkAccess .write place.names >>= fun _ ↦
        .ok (t.insert place.names (.file content'))) :=
  ⟨makeDirectories_above hr hplace hends, write_of_writable hends hplace hw content'⟩

/-- Along the path above a path to the file no directory is made in either tree, and then a file is
written under the same names, unless it may not be. -/
theorem writes (ht : t.Rooted) (hu : u.Rooted) (content' : ByteArray) :
    (t.makeDirectories (p.parent?.getD ⟨""⟩) = (t, none) ∧ t.write p content' =
      (t.checkAccess .write names >>= fun _ ↦ .ok (t.insert names (.file content')))) ∧
    u.makeDirectories (p.parent?.getD ⟨""⟩) = (u, none) ∧ u.write p content' =
      (u.checkAccess .write names >>= fun _ ↦ .ok (u.insert names (.file content'))) := by
  obtain ⟨hfound, hfree⟩ := h.resolve hp
  have hends := endsAsDirectory_of_free hfree
  exact ⟨writes_of_resolve ht hfree hends ⟨h.ne_nil, .inl h.absent⟩ content',
    writes_of_resolve hu hfound hends ⟨h.ne_nil, .inr ⟨content, h.present⟩⟩ content'⟩

omit hp in
/-- With one file written under the names the trees have the same entries. -/
theorem entry?_insert (content' : ByteArray) (other : Names) :
    FileTree.entry? (t.insert names (.file content')) other =
      FileTree.entry? (u.insert names (.file content')) other := by
  rw [FileTree.entry?_insert t h.ne_nil, FileTree.entry?_insert u h.ne_nil]
  split
  · rfl
  · next hne => exact h.same other (Ne.symm hne)

end Lacks

end KeyHarvest.FileTree
