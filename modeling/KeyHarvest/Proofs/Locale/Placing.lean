import KeyHarvest.Proofs.Files.Placing
import KeyHarvest.Proofs.Locale

/-!
# Updates as changes of one file

An update that succeeds puts the text of the reconciled dictionary in the file of its locale and
changes nothing else (`placed_of_update`), and it succeeds wherever there is room for a file that
may be written (`exists_update_of_placeable`). What it finds depends on nothing but that file
(`outcome_congr`). An update that fails may leave new directories, but all files as they were
(`file_of_update_eq_error`).
-/

namespace KeyHarvest

namespace Dictionary

variable {t u : FileTree} {p : Path}

/-- What is loaded at a path depends on nothing but the entry that the path leads to. -/
theorem load_congr (h : t.LeadsAlike u p) : load t p = load u p := by
  rw [load, load, ← h.pathExists]
  split
  · next hexists => rw [FileTree.readText, FileTree.readText, h.readBytes hexists]
  · rfl

/-- A dictionary is saved when the directories above its file can be made and the file written. -/
theorem save_eq_none_iff {d : Dictionary} : save t p d = (u, none) ↔
    ∃ made, t.makeDirectories (p.parent?.getD ⟨""⟩) = (made, none) ∧
      made.write p d.render.toUTF8 = .ok u := by
  rw [save]
  split
  · next heq => simp [heq]
  · next made heq =>
    rw [heq]
    split
    all_goals
      next hwrite =>
        simp only [hwrite, Prod.mk.injEq, and_true, exists_eq_left', Except.ok.injEq, reduceCtorEq,
          and_false]

/-- A dictionary that cannot be saved leaves all files as they were. -/
theorem file_of_save_eq_error {e : SaveError} {d : Dictionary} (h : save t p d = (u, some e))
    (names : Names) (content : ByteArray) :
    u.entry? names = some (.file content) ↔ t.entry? names = some (.file content) := by
  have hmade := FileTree.file_makeDirectoriesFrom_iff t (p.parent?.getD ⟨""⟩)
    ((p.parent?.getD ⟨""⟩).pieces.length + 1) names content
  rw [save, FileTree.makeDirectories] at h
  split at h
  · next made _ heq =>
    rw [heq] at hmade
    cases h
    exact hmade
  · next made heq =>
    rw [heq] at hmade
    split at h
    · cases h
    · cases h
      exact hmade

end Dictionary

namespace LocaleTarget

/-- The file of a locale as an update leaves it: its names and its bytes. -/
def file (target : LocaleTarget) (t : FileTree) (keys : Extracted) : Names × ByteArray :=
  (t.spelled target.path, (target.reconciled t keys).dictionary.render.toUTF8)

/-- The file of a locale may be written if it has to be. -/
def Permitted (target : LocaleTarget) (t : FileTree) (keys : Extracted) : Prop :=
  (target.outcome t keys false).changed = true →
    t.refusal? .write (t.spelled target.path) = none

variable {target : LocaleTarget} {t t' : FileTree} {keys : Extracted} {o : LocaleOutcome}

/-! ### What an update finds -/

/-- A locale is up to date when its file has the text of its dictionary. -/
theorem changed_eq_false_iff {dryRun : Bool} : (target.outcome t keys dryRun).changed = false ↔
    t.readBytes target.path = .ok (target.file t keys).2 := by
  rw [file, ← FileTree.readText_eq_ok_iff]
  cases hread : t.readText target.path with
  | error e => simp [outcome, hread]
  | ok text => simp [outcome, hread]

/-- What has changed is written. -/
theorem written_eq_changed (target : LocaleTarget) (t : FileTree) (keys : Extracted) :
    (target.outcome t keys false).written = (target.outcome t keys false).changed := by
  simp [outcome]

section Congruence

variable {u : FileTree}

/-- A locale is to have the same dictionary where its path leads to the same. -/
theorem reconciled_congr (h : t.LeadsAlike u target.path) :
    target.reconciled t keys = target.reconciled u keys := by
  rw [reconciled, reconciled, Dictionary.load_congr h]

/-- The file of a locale is to be the same where its path leads to the same. -/
theorem file_congr (h : t.LeadsAlike u target.path) : target.file t keys = target.file u keys := by
  rw [file, file, reconciled_congr h, h.seenAlike.spelled]

/-- What becomes of a locale depends on nothing but the entry that its path leads to. -/
theorem outcome_congr (h : t.LeadsAlike u target.path) (dryRun : Bool) :
    target.outcome t keys dryRun = target.outcome u keys dryRun := by
  have hchanged :
      (target.outcome t keys dryRun).changed = (target.outcome u keys dryRun).changed := by
    rw [← Bool.not_inj_iff, Bool.eq_iff_iff, Bool.not_eq_true', Bool.not_eq_true',
      changed_eq_false_iff, changed_eq_false_iff, FileTree.readBytes_eq_ok_iff,
      FileTree.readBytes_eq_ok_iff, file_congr h]
    simp only [h.leads, h.seenAlike.refusal?]
  simp only [outcome] at hchanged ⊢
  rw [hchanged, Dictionary.load_congr h, reconciled_congr h]

/-- Whether a locale may be written depends on nothing but the entry that its path leads to. -/
theorem permitted_congr (h : t.LeadsAlike u target.path) :
    target.Permitted t keys ↔ target.Permitted u keys := by
  rw [Permitted, Permitted, outcome_congr h, h.seenAlike.spelled, h.seenAlike.refusal?]

end Congruence

/-- A dry run succeeds and changes nothing. -/
theorem update_dryRun (target : LocaleTarget) (t : FileTree) (keys : Extracted) :
    target.update t keys true = (t, .ok (target.outcome t keys true)) := by
  have hwritten : (target.outcome t keys true).written = false := by simp [outcome]
  rw [update, hwritten, if_neg Bool.false_ne_true]

/-! ### What an update leaves -/

/-- An update succeeds when the dictionary is saved or need not be. -/
theorem update_eq_ok_iff : target.update t keys false = (t', .ok o) ↔
    o = target.outcome t keys false ∧
      if (target.outcome t keys false).written then
        Dictionary.save t target.path (target.reconciled t keys).dictionary = (t', none)
      else t' = t := by
  rw [update]
  split
  · split
    · next hsave =>
      rw [hsave]
      simp [and_comm, eq_comm]
    · next hsave =>
      rw [hsave]
      simp
  · simp [and_comm, eq_comm]

/-- A locale that cannot be updated leaves all files as they were. -/
theorem file_of_update_eq_error {e : SaveError} (h : target.update t keys false = (t', .error e))
    (names : Names) (content : ByteArray) :
    t'.entry? names = some (.file content) ↔ t.entry? names = some (.file content) := by
  rw [update] at h
  split at h
  · split at h
    · cases h
    · next hsave =>
      cases h
      exact Dictionary.file_of_save_eq_error hsave names content
  · cases h

section Plain

variable (hr : t.Rooted) (hp : t.Plain target.path)
include hr hp

/-- An update that succeeds could put the file of the locale there, and has done so and nothing
else. -/
theorem placed_of_update (h : target.update t keys false = (t', .ok o)) :
    t.Placeable target.path ∧ target.Permitted t keys ∧ o = target.outcome t keys false ∧
      t.Placed t' [target.file t keys] := by
  obtain ⟨ho, h⟩ := update_eq_ok_iff.mp h
  have hwritten := target.written_eq_changed t keys
  cases hchanged : (target.outcome t keys false).changed with
  | true =>
    rw [if_pos (hwritten.trans hchanged)] at h
    obtain ⟨made, hmake, hwrite⟩ := Dictionary.save_eq_none_iff.mp h
    obtain ⟨hplace, haccess, hput⟩ := FileTree.placed_of_write hr hp hmake hwrite
    exact ⟨hplace, fun _ ↦ haccess, ho, hput⟩
  | false =>
    rw [if_neg (by simp [hwritten, hchanged])] at h
    obtain ⟨names, hleads, -⟩ :=
      FileTree.readBytes_eq_ok_iff.mp (changed_eq_false_iff.mp hchanged)
    obtain ⟨hplace, hput⟩ := FileTree.placed_of_leadsToEntry hr hp hleads
    exact ⟨hplace, fun htrue ↦ by simp [hchanged] at htrue, ho, h ▸ hput⟩

/-- A locale whose file can be put where it belongs is updated. -/
theorem exists_update_of_placeable (h : t.Placeable target.path)
    (hpermitted : target.Permitted t keys) :
    ∃ t', target.update t keys false = (t', .ok (target.outcome t keys false)) := by
  have hwritten := target.written_eq_changed t keys
  cases hchanged : (target.outcome t keys false).changed with
  | true =>
    obtain ⟨made, u, hmake, hwrite⟩ := FileTree.exists_write_of_placeable hr hp h
      (hpermitted hchanged) (target.file t keys).2
    refine ⟨u, update_eq_ok_iff.mpr ⟨rfl, ?_⟩⟩
    rw [if_pos (hwritten.trans hchanged)]
    exact Dictionary.save_eq_none_iff.mpr ⟨made, hmake, hwrite⟩
  | false =>
    refine ⟨t, update_eq_ok_iff.mpr ⟨rfl, ?_⟩⟩
    rw [if_neg (by simp [hwritten, hchanged])]

/-- The file of a locale may be read if it can be put and may be written where it has to be. -/
theorem Permitted.readable (hpermitted : target.Permitted t keys) (h : t.Placeable target.path) :
    t.refusal? .read (t.spelled target.path) = none := by
  cases hchanged : (target.outcome t keys false).changed with
  | true =>
    -- What may be written may be read.
    exact FileTree.refusal?_of_rank_le (by decide) (hpermitted hchanged)
  | false =>
    obtain ⟨names, hleads, hread⟩ :=
      FileTree.readBytes_eq_ok_iff.mp (changed_eq_false_iff.mp hchanged)
    obtain ⟨rfl, -⟩ := (h.leadsToEntry_iff (.refl t) hr hp _ _).mp hleads
    exact hread

end Plain

end LocaleTarget

end KeyHarvest
