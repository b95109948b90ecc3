import KeyHarvest.Proofs.Files.Plain

/-!
# Written files read back

A file that has been written is read back through the same path (`readBytes_write`). Writing puts a
file under names that were free or led to a file already. No step of a path goes through such names
except to end there, so in the new tree the path resolves as it did before (`resolve_insert`).
-/

namespace KeyHarvest.FileTree

/-- What stands under names once an entry has been put in a tree. -/
theorem entry?_insert (t : FileTree) {names : Names} (hne : names ≠ []) (e : Entry)
    (other : Names) :
    entry? (t.insert names e) other = if names = other then some e else t.entry? other := by
  rw [ entry?, entry?, insert, KeyMap.get?_insert]
  by_cases h : other = []
  · rw [if_pos h, if_pos h, if_neg (h ▸ hne)]
  · rw [if_neg h, if_neg h]

/-- A file can be put under the names: they are free or lead to a file. -/
def Writable (t : FileTree) (names : Names) : Prop :=
  names ≠ [] ∧ (t.entry? names = none ∨ ∃ content, t.entry? names = some (.file content))

section Resolution

variable {t : FileTree} {names : Names} (hw : t.Writable names) (content : ByteArray)
include hw

private theorem entry?_insert_of_not_file {other : Names} {e : Entry}
    (he : t.entry? other = some e) (hf : ∀ old, e ≠ .file old) :
    entry? (t.insert names (.file content)) other = some e := by
  have hne : names ≠ other := by
    rintro rfl
    rcases hw.2 with hn | ⟨old, hn⟩
    · rw [he] at hn
      cases hn
    · rw [he] at hn
      cases hn
      exact hf old rfl
  rw [entry?_insert t hw.1, if_neg hne, he]

/-- Pieces that lead to the names of a new file without it lead to them with it, if this is so of
the pieces behind a link. -/
theorem resolveWith_insert {through through' : Names → List String → Except FileError Place}
    (hthrough : ∀ here pieces place, through here pieces = .ok place → place.names = names →
      through' here pieces = .ok (.found names))
    {here : Names} {pieces : List String} {place : Place}
    (h : t.resolveWith true through here pieces = .ok place) (hp : place.names = names) :
    (t.insert names (.file content)).resolveWith true through' here pieces =
      .ok (.found names) := by
  induction pieces generalizing here with
  | nil =>
    cases h
    rw [← hp]
    rfl
  | cons piece rest ih =>
    obtain ⟨hdir, hleads⟩ := resolveWith_cons_eq_ok_iff.mp h
    refine resolveWith_cons_eq_ok_iff.mpr ⟨?_, ?_⟩
    · rw [checkPiece_eq_ok_iff] at hdir ⊢
      exact ⟨entry?_insert_of_not_file hw content hdir.1 (by simp), hdir.2⟩
    -- Each piece leads on as it did, but for the free name, which is now that of the file.
    cases hleads with
    | idle hpiece h => exact .idle hpiece (ih h)
    | up hpiece h => exact .up hpiece (ih h)
    | free hpiece _ hr h =>
      have hnext : names = here ++ [piece] := by rw [← hp, h, Place.names]
      have he : entry? (t.insert names (.file content)) (here ++ [piece]) =
          some (.file content) := by
        rw [entry?_insert t hw.1, if_pos hnext]
      refine .entry hpiece he (by simp) ?_
      rw [hr, ← hnext]
      rfl
    | link _ _ hr => cases hr.2
    | behindLink hpiece he hr ht h =>
      have he' := entry?_insert_of_not_file hw content he (by simp)
      exact .behindLink hpiece he' hr ht (hthrough _ _ _ h hp)
    | @entry hpiece e he hl h =>
      by_cases hnext : names = here ++ [piece]
      · refine .entry hpiece (e := .file content) ?_ (by simp) (ih h)
        rw [entry?_insert t hw.1, if_pos hnext]
      · refine .entry hpiece ?_ hl (ih h)
        rw [entry?_insert t hw.1, if_neg hnext, he]

/-- Pieces that lead to the names of a new file without it lead to them with it, through as many
links. -/
theorem resolvePieces_insert {links : Nat} {here : Names} {pieces : List String} {place : Place}
    (h : t.resolvePieces true links here pieces = .ok place) (hp : place.names = names) :
    (t.insert names (.file content)).resolvePieces true links here pieces =
      .ok (.found names) := by
  induction links generalizing here pieces place with
  | zero =>
    refine resolveWith_insert hw content ?_ h hp
    intro _ _ _ hthrough
    cases hthrough
  | succ links ih => exact resolveWith_insert hw content (fun _ _ _ ↦ ih) h hp

/-- A path that leads to the names of a new file without it leads to them with it. -/
theorem resolve_insert {p : Path} {place : Place} (h : t.resolve true p = .ok place)
    (hp : place.names = names) :
    (t.insert names (.file content)).resolve true p = .ok (.found names) := by
  rw [resolve, bind_eq_ok_iff] at h ⊢
  obtain ⟨u, hcheck, h⟩ := h
  exact ⟨u, hcheck, resolvePieces_insert hw content h hp⟩

end Resolution

/-! ### Writing -/

/-- What is written does not end as the path of a directory. -/
theorem endsAsDirectory_of_write {t t' : FileTree} {p : Path} {content : ByteArray}
    (h : t.write p content = .ok t') : endsAsDirectory p = false := by
  rw [write, bind_eq_ok_iff] at h
  obtain ⟨_, -, h⟩ := h
  split at h
  · rw [bind_eq_ok_iff] at h
    obtain ⟨_, -, h⟩ := h
    cases h
  · next hends => simpa using hends

/-- What writing changes: the path leads to names that a file can be put under, and is put under. -/
theorem write_eq_ok {t t' : FileTree} {p : Path} {content : ByteArray}
    (h : t.write p content = .ok t') : ∃ place, t.resolve true p = .ok place ∧
      t.Writable place.names ∧ t.refusal? .write place.names = none ∧
      t' = t.insert place.names (.file content) := by
  have hends := endsAsDirectory_of_write h
  rw [write, bind_eq_ok_iff] at h
  obtain ⟨_, -, h⟩ := h
  rw [if_neg (by simp [hends]), bind_eq_ok_iff] at h
  obtain ⟨place, hplace, h⟩ := h
  refine ⟨place, hplace, ?_⟩
  simp only at h
  split at h
  · cases h
  · cases h
  next hdir hlink =>
  rw [bind_eq_ok_iff] at h
  obtain ⟨⟨⟩, haccess, h⟩ := h
  cases h
  have hne : place.names ≠ [] := fun hn ↦ hdir (by rw [hn]; rfl)
  refine ⟨⟨hne, ?_⟩, checkAccess_eq_ok_iff.mp haccess, rfl⟩
  cases he : t.entry? place.names with
  | none => exact .inl rfl
  | some e =>
    cases e with
    | file old => exact .inr ⟨old, rfl⟩
    | directory => exact absurd he hdir
    | link target => exact absurd he (hlink target)

/-- A file is read if the path leads to it and it may be read. -/
theorem readBytes_eq_ok_iff {t : FileTree} {p : Path} {content : ByteArray} :
    t.readBytes p = .ok content ↔
      ∃ names, t.LeadsToEntry p names (.file content) ∧ t.refusal? .read names = none := by
  simp only [readBytes, bind_eq_ok_iff, locate_eq_ok_iff_resolve]
  constructor
  · rintro ⟨names, hplace, ⟨⟩, haccess, h⟩
    split at h
    · next old he =>
      cases h
      exact ⟨names, ⟨hplace, he⟩, checkAccess_eq_ok_iff.mp haccess⟩
    · cases h
  · rintro ⟨names, ⟨hplace, he⟩, haccess⟩
    exact ⟨names, hplace, (), checkAccess_of_none haccess, by rw [he]⟩

/-- A path leads to the same entry in two trees seen alike. -/
structure LeadsAlike (t u : FileTree) (p : Path) : Prop where
  seenAlike : t.SeenAlike u
  leads : ∀ names e, t.LeadsToEntry p names e ↔ u.LeadsToEntry p names e

/-- A path exists in both of two trees in which it leads to the same, or in neither. -/
theorem LeadsAlike.pathExists {t u : FileTree} {p : Path} (h : t.LeadsAlike u p) :
    t.pathExists p = u.pathExists p := by
  rw [Bool.eq_iff_iff, pathExists_iff, pathExists_iff]
  simp only [h.leads]

/-- What is read at a path that exists is the same where it leads to the same. -/
theorem LeadsAlike.readBytes {t u : FileTree} {p : Path} (h : t.LeadsAlike u p)
    (hexists : t.pathExists p = true) : t.readBytes p = u.readBytes p := by
  obtain ⟨names, e, hleads⟩ := (pathExists_iff t p).mp hexists
  have hlocate {v : FileTree} (hv : v.LeadsToEntry p names e) : v.locate true p = .ok names :=
    (locate_eq_ok_iff_resolve v p names).mpr hv.1
  have hleads' := (h.leads names e).mp hleads
  rw [FileTree.readBytes, FileTree.readBytes, hlocate hleads, hlocate hleads', ok_bind, ok_bind,
    hleads.2, hleads'.2, checkAccess, checkAccess, h.seenAlike.refusal?]

/-- A file that has been written is read back. -/
theorem readBytes_write {t t' : FileTree} {p : Path} {content : ByteArray}
    (h : t.write p content = .ok t') : t'.readBytes p = .ok content := by
  obtain ⟨place, hplace, hw, haccess, rfl⟩ := write_eq_ok h
  have hentry : entry? (t.insert place.names (.file content)) place.names =
      some (.file content) := by
    rw [entry?_insert t hw.1, if_pos rfl]
  exact readBytes_eq_ok_iff.mpr ⟨place.names, ⟨resolve_insert hw content hplace rfl, hentry⟩,
    refusal?_of_rank_le (by decide) haccess⟩

private theorem decode?_eq_some_iff {bytes : ByteArray} {text : String} :
    Text.decode? bytes = some text ↔ bytes = text.toUTF8 := by
  constructor
  · intro h
    rw [Text.decode?, String.fromUTF8?] at h
    split at h
    · cases h
      rfl
    · cases h
  · rintro rfl
    exact dif_pos text.isValidUTF8

/-- A text is read if its bytes are. -/
theorem readText_eq_ok_iff {t : FileTree} {p : Path} {text : String} :
    t.readText p = .ok text ↔ t.readBytes p = .ok text.toUTF8 := by
  rw [readText, bind_eq_ok_iff]
  constructor
  · rintro ⟨bytes, hbytes, h⟩
    cases hd : Text.decode? bytes with
    | none =>
      rw [hd] at h
      cases h
    | some text' =>
      rw [hd] at h
      cases h
      rw [hbytes, decode?_eq_some_iff.mp hd]
  · intro h
    refine ⟨_, h, ?_⟩
    rw [decode?_eq_some_iff.mpr rfl]

/-- A text that has been written is read back. -/
theorem readText_write {t t' : FileTree} {p : Path} {text : String}
    (h : t.write p text.toUTF8 = .ok t') : t'.readText p = .ok text := by
  rw [readText_eq_ok_iff, readBytes_write h]

end KeyHarvest.FileTree
