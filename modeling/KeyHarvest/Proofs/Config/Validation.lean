import KeyHarvest.Config.Basic
import KeyHarvest.Proofs.Files.Glob.Expand
import KeyHarvest.Sources

/-!
# Checked settings and the patterns of a scan

Settings that pass have patterns for ignored entries and for included entries with wildcards, each
read as it stands (`patterns_of_valid`). A scan reads ignored entries in the same way. An included
entry it reads behind the text of the base directory, and piece by piece: it has to give the entry
up where a piece of either is no pattern (`scan_of_valid`), as the name `app[1` of a directory is
none. Nothing is given up if the entry holds no bracket and the base directory neither a bracket nor
a star.
-/

namespace KeyHarvest

open KeyHarvest.Path

namespace Config

/-! ### What the checks say -/

private theorem firstBad_eq_none_iff (entries : List String) :
    firstBad entries = none ↔ ∀ entry ∈ entries, Glob.IsPattern entry := by
  rw [firstBad, List.findSome?_eq_none_iff]
  refine forall₂_congr fun entry _ ↦ ?_
  rw [Glob.IsPattern]
  cases Glob.parse entry <;> simp

/-- The entries of settings that pass are patterns, included ones if they have a wildcard. -/
theorem patterns_of_valid {c : Config} (h : c.invalid? = none) :
    (∀ entry ∈ c.ignores, Glob.IsPattern entry) ∧
      ∀ entry ∈ c.includes, Glob.hasWildcard entry = true → Glob.IsPattern entry := by
  rw [invalid?] at h
  split at h
  · cases h
  split at h
  · cases h
  split at h
  · cases h
  split at h
  · cases h
  split at h
  · cases h
  next hignores =>
  rw [Option.map_eq_none_iff, firstBad_eq_none_iff] at h
  exact ⟨(firstBad_eq_none_iff _).mp hignores,
    fun entry hentry hwild ↦ h entry (List.mem_filter.mpr ⟨hentry, hwild⟩)⟩

end Config

/-! ### What a scan gives up -/

/-- Whether a piece of a path is no pattern by itself. -/
def Path.HasBadPiece (p : Path) : Prop :=
  ∃ piece ∈ p.pieces, ¬ Glob.IsPattern piece

/-- A joined path has a piece that is no pattern if the second path has one, or the first path has
one and the second does not stand alone. -/
theorem Path.hasBadPiece_join_iff (p q : Path) : (p.join q).HasBadPiece ↔
    q.HasBadPiece ∨ q.isAbsolute = false ∧ p.HasBadPiece := by
  by_cases ha : q.isAbsolute = true
  · simp [Path.join, ha]
  rw [Bool.not_eq_true] at ha
  by_cases hp : p.text = ""
  · have hnone : ¬ p.HasBadPiece := by
      rw [show p = ⟨""⟩ from congrArg Path.mk hp]
      rintro ⟨piece, hpiece, hbad⟩
      rw [show Path.pieces ⟨""⟩ = [""] by decide, List.mem_singleton] at hpiece
      exact hbad (hpiece ▸ Glob.isPattern_empty)
    have hjoin : p.join q = q := by
      rw [Path.join, if_neg (by simp [ha]), if_pos (.inl hp), hp, String.empty_append]
    simp [hjoin, hnone]
  · obtain ⟨front, -, hpieces, hjoin⟩ := exists_pieces_join hp ha
    have hfront : p.HasBadPiece ↔ ∃ piece ∈ front, ¬ Glob.IsPattern piece := by
      rcases hpieces with h | h
      · rw [HasBadPiece, h]
      · simp [HasBadPiece, h, or_and_right, exists_or, Glob.isPattern_empty]
    rw [hfront, HasBadPiece, hjoin, HasBadPiece]
    simp only [List.mem_append, or_and_right, exists_or, ha, true_and]
    exact or_comm

namespace ScanOptions

variable (options : ScanOptions) (t : FileTree) (base : Path)

/-- A warning of a scan is about an ignored entry, an included entry or a path. -/
theorem mem_warnings_iff {w : ScanWarning} (hw : ∀ e, w ≠ .inaccessible e) :
    w ∈ (t.scan base options).warnings ↔
      w ∈ options.ignoreWarnings ∨ w ∈ (options.roots t base).2 := by
  show w ∈ options.ignoreWarnings ++ (options.roots t base).2 ++ List.filterMap _ _ ↔ _
  rw [List.mem_append, List.mem_append]
  refine or_iff_left fun hmem ↦ ?_
  obtain ⟨found, -, hfound⟩ := List.mem_filterMap.mp hmem
  cases found with
  | ok => cases hfound
  | error e => exact hw e (Option.some.inj hfound).symm

private theorem mem_ignoreWarnings_iff (w : ScanWarning) : w ∈ options.ignoreWarnings ↔
    ∃ entry ∈ options.ignores, Glob.hasWildcard entry = true ∧
      ∃ e, Glob.parse entry = .error e ∧ w = .badIgnore entry e := by
  simp only [ignoreWarnings, List.mem_filterMap, List.mem_filter, and_assoc]
  refine exists_congr fun entry ↦ and_congr_right fun _ ↦ and_congr_right fun _ ↦ ?_
  cases Glob.parse entry <;> simp [eq_comm]

private theorem mem_includeWarnings_iff (w : ScanWarning) : w ∈ (options.roots t base).2 ↔
    ∃ entry ∈ options.includes, includedBy t base entry = .error w := by
  rw [roots]
  by_cases hnone : options.includes = []
  · simp [hnone]
  · rw [if_neg (by simpa using hnone)]
    simp only [List.mem_filterMap, List.mem_map, exists_exists_and_eq_and]
    refine exists_congr fun entry ↦ and_congr_right fun _ ↦ ?_
    cases includedBy t base entry <;> simp

private theorem includedBy_ne_badIgnore (entry text : String) (e : Glob.PatternError) :
    includedBy t base entry ≠ .error (.badIgnore text e) := by
  rw [includedBy]
  split
  · split <;> simp
  · split <;> simp

private theorem includedBy_eq_badInclude_iff (entry text : String) (e : Glob.PatternError) :
    includedBy t base entry = .error (.badInclude text e) ↔
      entry = text ∧ Glob.hasWildcard entry = true ∧
        Glob.expand t (base.join ⟨entry⟩) = .error e := by
  rw [includedBy]
  by_cases hwild : Glob.hasWildcard entry = true
  · rw [if_pos hwild]
    cases Glob.expand t (base.join ⟨entry⟩) <;> simp [hwild]
  · rw [if_neg hwild]
    split <;> simp [hwild]

/-- An ignored entry with a wildcard is given up if it is no pattern. -/
theorem badIgnore_mem_warnings_iff (entry : String) :
    (∃ e, .badIgnore entry e ∈ (t.scan base options).warnings) ↔
      entry ∈ options.ignores ∧ Glob.hasWildcard entry = true ∧ ¬ Glob.IsPattern entry := by
  have hmem (e : Glob.PatternError) :
      .badIgnore entry e ∈ (t.scan base options).warnings ↔
        entry ∈ options.ignores ∧ Glob.hasWildcard entry = true ∧ Glob.parse entry = .error e := by
    rw [mem_warnings_iff options t base (by simp), mem_ignoreWarnings_iff, mem_includeWarnings_iff]
    simp [includedBy_ne_badIgnore, ← and_assoc]
  simp only [hmem, exists_and_left, Glob.IsPattern]
  refine and_congr_right fun _ ↦ and_congr_right fun _ ↦ ?_
  cases Glob.parse entry <;> simp

/-- An included entry with a wildcard is given up if a piece of it is no pattern, or one of the base
directory before it. -/
theorem badInclude_mem_warnings_iff (entry : String) :
    (∃ e, .badInclude entry e ∈ (t.scan base options).warnings) ↔
      entry ∈ options.includes ∧ Glob.hasWildcard entry = true ∧
        (base.join ⟨entry⟩).HasBadPiece := by
  have hmem (e : Glob.PatternError) :
      .badInclude entry e ∈ (t.scan base options).warnings ↔
        entry ∈ options.includes ∧ Glob.hasWildcard entry = true ∧
          Glob.expand t (base.join ⟨entry⟩) = .error e := by
    rw [mem_warnings_iff options t base (by simp), mem_ignoreWarnings_iff, mem_includeWarnings_iff]
    simp [includedBy_eq_badInclude_iff]
  have hexpand : (∃ e, Glob.expand t (base.join ⟨entry⟩) = .error e) ↔
      ¬ ∀ piece ∈ (base.join ⟨entry⟩).pieces, Glob.IsPattern piece := by
    rw [← Glob.exists_expand_eq_ok_iff t]
    cases Glob.expand t (base.join ⟨entry⟩) <;> simp
  simp only [hmem, exists_and_left, hexpand, Path.HasBadPiece, not_forall, exists_prop]

end ScanOptions

namespace Config

/-- What a scan gives up of settings that pass: no ignored entry, and an included entry with a
wildcard exactly if a piece of it is no pattern by itself, or a piece of the base directory is none
and the entry does not stand alone. This needs a bracket in the entry, or a bracket or star in the
base directory. -/
theorem scan_of_valid {c : Config} (hc : c.invalid? = none) (t : FileTree) (base : Path) :
    let warnings := (t.scan base ⟨c.includes, c.ignores, c.extensions⟩).warnings
    (∀ entry e, .badIgnore entry e ∉ warnings) ∧
      ∀ entry, ((∃ e, .badInclude entry e ∈ warnings) ↔
          entry ∈ c.includes ∧ Glob.hasWildcard entry = true ∧
            ((Path.mk entry).HasBadPiece ∨
              (Path.mk entry).isAbsolute = false ∧ base.HasBadPiece)) ∧
        ('[' ∉ entry.toList → '[' ∉ base.text.toList → '*' ∉ base.text.toList →
          ∀ e, .badInclude entry e ∉ warnings) := by
  intro warnings
  obtain ⟨hignores, hincludes⟩ := patterns_of_valid hc
  let options : ScanOptions := ⟨c.includes, c.ignores, c.extensions⟩
  have hgiven (entry : String) : (∃ e, .badInclude entry e ∈ warnings) ↔
      entry ∈ c.includes ∧ Glob.hasWildcard entry = true ∧
        ((Path.mk entry).HasBadPiece ∨
          (Path.mk entry).isAbsolute = false ∧ base.HasBadPiece) := by
    rw [options.badInclude_mem_warnings_iff t base entry, Path.hasBadPiece_join_iff]
  refine ⟨fun entry e he ↦ ?_, fun entry ↦ ⟨hgiven entry, fun hentry hbracket hstar e he ↦ ?_⟩⟩
  · obtain ⟨hmem, -, hbad⟩ := (options.badIgnore_mem_warnings_iff t base entry).mp ⟨e, he⟩
    exact hbad (hignores entry hmem)
  · obtain ⟨hmem, hwild, ⟨piece, hpiece, hbad⟩ | ⟨-, piece, hpiece, hbad⟩⟩ :=
      (hgiven entry).mp ⟨e, he⟩
    · exact hbad (Glob.isPattern_of_mem_pieces (hincludes entry hmem hwild) hentry hpiece)
    · exact hbad (Glob.isPattern_of_not_mem hstar hbracket hpiece)

/-- Behind the name of a directory with an open bracket an entry that passes is given up, and one
behind a plain name is not. -/
theorem scan_of_valid_open_bracket :
    let c : Config := { locales := ["en"], includes := ["**/*.js"] }
    c.invalid? = none ∧
      (∃ e, .badInclude "**/*.js" e ∈
        (FileTree.empty.scan ⟨"app[1"⟩ ⟨c.includes, c.ignores, c.extensions⟩).warnings) ∧
      ∀ e, .badInclude "**/*.js" e ∉
        (FileTree.empty.scan ⟨"app"⟩ ⟨c.includes, c.ignores, c.extensions⟩).warnings := by
  intro c
  have hc : c.invalid? = none := by decide +kernel
  have hbase : Path.HasBadPiece ⟨"app[1"⟩ := ⟨"app[1", by decide +kernel, by decide +kernel⟩
  refine ⟨hc, ?_, ?_⟩
  · exact ((scan_of_valid hc .empty ⟨"app[1"⟩).2 "**/*.js").1.mpr
      ⟨by decide, by decide, .inr ⟨by decide, hbase⟩⟩
  · exact ((scan_of_valid hc .empty ⟨"app"⟩).2 "**/*.js").2 (by decide) (by decide) (by decide)

/-- Settings that pass lose the files of an included pattern to the name of the base directory,
which a scan without included entries walks. -/
theorem valid_include_given_up :
    let c : Config := { locales := ["en"], includes := ["**/*.js"] }
    let t : FileTree :=
      { entries := .ofList [(["app[1"], .directory), (["app[1", "main.js"], .file .empty)] }
    c.invalid? = none ∧
      (t.scan ⟨"app[1"⟩ ⟨c.includes, c.ignores, c.extensions⟩).warnings =
        [.badInclude "**/*.js" ⟨3, .badBrackets⟩] ∧
      (t.scan ⟨"app[1"⟩ ⟨c.includes, c.ignores, c.extensions⟩).files = [] ∧
      (t.scan ⟨"app[1"⟩ ⟨[], c.ignores, c.extensions⟩).files = [⟨"app[1/main.js"⟩] := by
  refine ⟨?_, ?_, ?_, ?_⟩ <;> decide +kernel

end Config

end KeyHarvest
