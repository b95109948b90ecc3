import KeyHarvest.Config.Discovery
import KeyHarvest.Proofs.Files.Upward

/-!
# Where settings are found

The search for settings goes up by the text of the path: it passes the directories that the names on
the path lead to, from the last one back to where the path leads from, and ends at the first that
holds settings or marks a repository. Where the path goes down only, these are the directories above
its end. Two dots are a name like others to the search, and so it passes directories next to the way
up as well (`find?_nearest`).
-/

namespace KeyHarvest.Config

open KeyHarvest.Path FileTree

/-- A directory holds neither settings nor the mark of a repository. -/
def Clear (t : FileTree) (dir : Names) : Prop :=
  ¬ t.Holds dir fileName ∧ ¬ t.Holds dir repositoryMark

instance (t : FileTree) (dir : Names) : Decidable (Clear t dir) :=
  inferInstanceAs (Decidable (_ ∧ _))

/-- What is found is the nearest file of settings on the way up from the end of some names, whose
beginnings lead to directories, as far as some top. The file stands in one of them, and those after
it are clear; without a file, after each one with settings comes one with the mark of a
repository. -/
def IsNearest (t : FileTree) (leads : Names → Names) (top way : Names) : Option Path → Prop
  | some p => ∃ above, above <+: way ∧ t.locate true p = .ok (leads above ++ [fileName]) ∧
      t.Holds (leads above) fileName ∧
      ∀ below, above <+: below → below <+: way → below ≠ above → Clear t (leads below)
  | none => ∀ above, top <+: above → above <+: way → t.Holds (leads above) fileName →
      ∃ below, above <+: below ∧ below <+: way ∧ below ≠ above ∧
        t.Holds (leads below) repositoryMark

section Nearest

variable {t : FileTree} {leads : Names → Names} {top way : Names} {found : Option Path}

/-- Settings where the way ends are nearest. -/
theorem isNearest_of_holds {p : Path} (hlocate : t.locate true p = .ok (leads way ++ [fileName]))
    (hholds : t.Holds (leads way) fileName) : IsNearest t leads top way (some p) := by
  refine ⟨way, List.prefix_rfl, hlocate, hholds, fun below hle hge hne ↦ ?_⟩
  exact absurd (hle.eq_of_length_le hge.length_le).symm hne

/-- Where the way ends with the mark of a repository and no settings, none are nearest. -/
theorem isNearest_of_mark (hnone : ¬ t.Holds (leads way) fileName)
    (hmark : t.Holds (leads way) repositoryMark) : IsNearest t leads top way none := by
  intro above _ habove hholds
  refine ⟨way, habove, List.prefix_rfl, ?_, hmark⟩
  rintro rfl
  exact hnone hholds

/-- Where there is no way and no settings, none are nearest. -/
theorem isNearest_nil (hnone : ¬ t.Holds (leads []) fileName) : IsNearest t leads top [] none := by
  intro above _ habove hholds
  obtain rfl := List.prefix_nil.mp habove
  exact absurd hholds hnone

/-- What is nearest on a way is nearest on one that is longer by a clear directory. -/
theorem IsNearest.of_clear (h : IsNearest t leads top way found) {name : String}
    (hclear : Clear t (leads (way ++ [name]))) : IsNearest t leads top (way ++ [name]) found := by
  cases found with
  | some p =>
    obtain ⟨above, habove, hlocate, hholds, hbelow⟩ := h
    refine ⟨above, habove.trans (List.prefix_append _ _), hlocate, hholds, ?_⟩
    intro below hle hge hne
    rcases List.prefix_concat_iff.mp hge with rfl | hge
    · exact hclear
    · exact hbelow below hle hge hne
  | none =>
    intro above htop habove hholds
    rcases List.prefix_concat_iff.mp habove with rfl | habove
    · exact absurd hholds hclear.1
    · obtain ⟨below, hle, hge, hne, hmark⟩ := h above htop habove hholds
      exact ⟨below, hle, hge.trans (List.prefix_append _ _), hne, hmark⟩

/-- What is nearest on the way that names take is nearest on the way up from where they lead, as
high as their way goes, if all other directories on their way are clear. -/
theorem IsNearest.of_wander {here : Names} (h : IsNearest t (wander here) [] way found)
    (hstay : ∀ visit, visit <+: way →
      wander here visit <+: wander here way ∨ Clear t (wander here visit))
    (htop : top <+: way) : IsNearest t id (wander here top) (wander here way) found := by
  cases found with
  | some p =>
    obtain ⟨above, habove, hlocate, hholds, hbelow⟩ := h
    have hup := (hstay above habove).resolve_right fun hclear ↦ hclear.1 hholds
    refine ⟨wander here above, hup, hlocate, hholds, fun below hle hge hne ↦ ?_⟩
    obtain ⟨visit, hvisit, rfl, hafter⟩ := exists_last_visit hge habove hle
    by_cases heq : visit = above
    · exact absurd (congrArg _ heq) hne
    rcases List.prefix_or_prefix_of_prefix habove hvisit with hlater | hearlier
    · exact hbelow visit hlater hvisit heq
    · have hstart := (hafter above hearlier habove (Ne.symm heq)).1
      exact absurd (hstart.eq_of_length_le hle.length_le) hne
  | none =>
    intro above hhigh habove hholds
    obtain ⟨visit, hvisit, rfl, hafter⟩ := exists_last_visit habove htop hhigh
    obtain ⟨below, hle, hge, hne, hmark⟩ := h visit List.nil_prefix hvisit hholds
    obtain ⟨hstart, hdiffer⟩ := hafter below hle hge hne
    exact ⟨wander here below, hstart,
      (hstay below hge).resolve_right fun hclear ↦ hclear.2 hmark, hdiffer, hmark⟩

end Nearest

/-! ### The search -/

section Search

variable {t : FileTree} {p : Path} {dir : Names}

/-- The name of the file of settings can be added to a path with room for it. -/
theorem fitting_fileName (hsize : p.text.utf8ByteSize + 17 ≤ maxPath) : Fitting p fileName :=
  ⟨⟨by decide, by decide, by decide, by decide⟩, by decide, by decide, hsize⟩

/-- The mark of a repository can be added to a path with room for the name of the file. -/
theorem fitting_repositoryMark (hsize : p.text.utf8ByteSize + 17 ≤ maxPath) :
    Fitting p repositoryMark := by
  refine ⟨⟨by decide, by decide, by decide, by decide⟩, by decide, by decide, ?_⟩
  have hmark : repositoryMark.utf8ByteSize = 4 := by decide
  omega

/-- The search from a path finds the nearest settings on the way of its names. -/
theorem isNearest_findFrom (hl : t.Linkless) (h : t.StandsFor p dir)
    (hsize : p.text.utf8ByteSize + 17 ≤ maxPath) {fuel : Nat}
    (hfuel : (p.text = "" ∨ p.text = "/") ∧ 0 < fuel ∨ p.pieces.length < fuel) :
    IsNearest t (wander (t.origin p)) [] p.names (findFrom t p fuel) := by
  induction fuel generalizing p dir with
  | zero => omega
  | succ fuel ih =>
    obtain rfl := hl.eq_wander_names h
    rw [findFrom]
    split
    · next hexists =>
      have hholds := (hl.pathExists_child h (fitting_fileName hsize)).mp hexists
      exact isNearest_of_holds
        ((hl.locate_child_iff h (fitting_fileName hsize) _).mpr ⟨rfl, hholds⟩) hholds
    next hmissing =>
    have hnone := (hl.pathExists_child h (fitting_fileName hsize)).not.mp hmissing
    split
    · next hexists =>
      exact isNearest_of_mark hnone
        ((hl.pathExists_child h (fitting_repositoryMark hsize)).mp hexists)
    next hunmarked =>
    have hclear : Clear t (wander (t.origin p) p.names) :=
      ⟨hnone, (hl.pathExists_child h (fitting_repositoryMark hsize)).not.mp hunmarked⟩
    rcases hl.standsFor_parent? h with ⟨hnames, hparent⟩ | ⟨hends, q, hparent, hq, habove⟩
    · rw [hnames] at hnone ⊢
      rw [hparent]
      exact isNearest_nil hnone
    · rw [hparent]
      have hpieces : 0 < p.pieces.length := by
        obtain ⟨first, rest, hpieces⟩ := exists_pieces_eq_cons p
        rw [hpieces]
        exact Nat.succ_pos _
      have hlong : p.pieces.length < fuel + 1 :=
        hfuel.resolve_left fun hend ↦ hend.1.elim hends.1 hends.2
      have hle := habove.size
      have horigin : t.origin q = t.origin p := t.origin_congr habove.isAbsolute
      have hnearest := ih hq (by omega)
        (habove.length.imp (fun hend ↦ ⟨hend, by omega⟩) fun hshorter ↦ by omega)
      rw [horigin] at hnearest
      rcases habove.names with hnames | ⟨name, hnames⟩
      · rwa [hnames]
      · rw [hnames] at hclear ⊢
        exact hnearest.of_clear hclear

/-- The search for settings passes the directories to which the names on the path lead, from the
last one back to where the path leads from, the working directory or the root, and ends at the first
that holds settings or marks a repository. If those of them that are not above the last one hold
neither, as when the path goes down only, the search finds the nearest settings on the way up from
there, as high as the path goes. The path leaves room for the name of the file. -/
theorem find?_nearest (hl : t.Linkless) {start : Path} {here : Names}
    (hstart : t.locate true start = .ok here) (hdir : t.entry? here = some .directory)
    (hsize : start.text.utf8ByteSize + 17 ≤ maxPath) :
    here = wander (t.origin start) start.names ∧
      IsNearest t (wander (t.origin start)) [] start.names (find? t start) ∧
      ((∀ visit, visit <+: start.names → wander (t.origin start) visit <+: here ∨
          Clear t (wander (t.origin start) visit)) →
        ∀ top, top <+: start.names →
          IsNearest t id (wander (t.origin start) top) here (find? t start)) ∧
      (".." ∉ start.names → IsNearest t id (t.origin start) here (find? t start)) := by
  have h : t.StandsFor start here := ⟨.inr hstart, hdir⟩
  have hnearest : IsNearest t (wander (t.origin start)) [] start.names (find? t start) :=
    isNearest_findFrom hl h hsize (.inr (by omega))
  obtain rfl := hl.eq_wander_names h
  refine ⟨rfl, hnearest, fun hstay top htop ↦ hnearest.of_wander hstay htop, fun hup ↦ ?_⟩
  refine hnearest.of_wander (fun visit hvisit ↦ .inl ?_) List.nil_prefix
  rw [wander_of_not_up hup, wander_of_not_up fun h ↦ hup (hvisit.subset h)]
  exact (List.prefix_append_right_inj _).mpr hvisit

/-- From a path that leads up, down, up and down again the settings of the repository are found past
directories without any. -/
theorem find?_nearest_lib :
    let t : FileTree := {
      entries := .ofList [(["home"], .directory), (["home", fileName], .file .empty),
        (["home", "lib"], .directory), (["home", "src"], .directory),
        (["home", "work"], .directory)],
      working := ["home", "work"] }
    let start : Path := ⟨"../lib/../src"⟩
    t.Linkless ∧ t.locate true start = .ok ["home", "src"] ∧
      (∀ visit, visit <+: start.names →
        wander ["home", "work"] visit <+: ["home", "src"] ∨
          Clear t (wander ["home", "work"] visit)) ∧
      IsNearest t id ["home"] ["home", "src"] (find? t start) ∧
      find? t start = some ⟨"../lib/../.ngxtractrc.json"⟩ := by
  intro t start
  have hl : t.Linkless := by decide +kernel
  have hstart : t.locate true start = .ok ["home", "src"] := by decide +kernel
  have hstay : ∀ visit, visit <+: start.names →
      wander ["home", "work"] visit <+: ["home", "src"] ∨
        Clear t (wander ["home", "work"] visit) := by
    have hinits : ∀ visit ∈ start.names.inits,
        wander ["home", "work"] visit <+: ["home", "src"] ∨
          Clear t (wander ["home", "work"] visit) := by decide +kernel
    exact fun visit hvisit ↦ hinits visit ((List.mem_inits _ _).mpr hvisit)
  refine ⟨hl, hstart, hstay, ?_, by decide +kernel⟩
  have hup : [".."] <+: start.names := by decide +kernel
  have horigin : t.origin start = ["home", "work"] := by decide +kernel
  obtain ⟨-, -, hnearest, -⟩ := find?_nearest hl hstart (by decide +kernel) (by decide)
  rw [horigin] at hnearest
  exact hnearest hstay _ hup

/-- From a path that leads down and up again the settings of a directory below are found. -/
theorem find?_below_start :
    let t : FileTree :=
      { entries := .ofList [(["app"], .directory), (["app", fileName], .file .empty)] }
    let start : Path := ⟨"app/.."⟩
    t.Linkless ∧ t.locate true start = .ok [] ∧ find? t start = some ⟨"app/.ngxtractrc.json"⟩ ∧
      t.locate true ⟨"app/.ngxtractrc.json"⟩ = .ok ["app", fileName] ∧
      ¬ IsNearest t id [] [] (find? t start) := by
  intro t start
  have hfind : find? t start = some ⟨"app/.ngxtractrc.json"⟩ := by decide +kernel
  have hlocate : t.locate true ⟨"app/.ngxtractrc.json"⟩ = .ok ["app", fileName] := by
    decide +kernel
  refine ⟨by decide +kernel, by decide +kernel, hfind, hlocate, ?_⟩
  rw [hfind]
  rintro ⟨above, habove, habove', -⟩
  obtain rfl := List.prefix_nil.mp habove
  rw [hlocate] at habove'
  exact absurd (Except.ok.inj habove') (by decide)

end Search

end KeyHarvest.Config
