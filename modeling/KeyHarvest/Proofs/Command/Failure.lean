import KeyHarvest.Proofs.Command.Extract

/-!
# Extractions that fail

An extraction that fails before it comes to the locales touches nothing. One that fails at a locale
leaves the files of the locales before that one as their own updates do, and all other files as they
were (`extract_fails`, `run_fails`).
-/

namespace KeyHarvest.Command

/-- The first `n` locales are finished: their files are what their own updates leave, and no other
file is new or has other bytes than before. -/
structure FinishedUpTo (n : Nat) (targets : List LocaleTarget) (keys : Extracted)
    (t t' : FileTree) : Prop where
  finished : ∀ target ∈ targets.take n, ∃ own outcome content,
    target.update t keys false = (own, .ok outcome) ∧
      own.entry? (t.spelled target.path) = some (.file content) ∧
      t'.entry? (t.spelled target.path) = some (.file content)
  others : ∀ names, (∀ target ∈ targets.take n, t.spelled target.path ≠ names) → ∀ content,
    t'.entry? names = some (.file content) ↔ t.entry? names = some (.file content)

variable {t t' : FileTree} {keys : Extracted} {targets : List LocaleTarget}

/-- Updates that fail at a locale have finished those before it. -/
theorem updateLocales_fails (hr : t.Rooted) (hs : Separate t targets) {e : ExtractError}
    (h : updateLocales keys false t targets = (t', .error e)) :
    ∃ n target cause, targets[n]? = some target ∧ e = .locale target.locale cause ∧
      FinishedUpTo n targets keys t t' := by
  obtain ⟨done, target, rest, u, outcomes, cause, rfl, hdone, hfail, rfl⟩ :=
    updateLocales_eq_error h
  have hsdone : Separate t done :=
    ⟨fun other hother ↦ hs.plain other (List.mem_append_left _ hother),
      (List.pairwise_append.mp hs.distinct).1⟩
  obtain ⟨hu, -, hput⟩ := updateLocales_eq_ok hr hsdone hdone
  have hfiles (names : Names) (content : ByteArray) :
      t'.entry? names = some (.file content) ↔ u.entry? names = some (.file content) :=
    LocaleTarget.file_of_update_eq_error hfail names content
  refine ⟨done.length, target, cause, by simp, rfl, ?_, ?_⟩
  · rw [List.take_left]
    intro other hother
    have hplain := hsdone.plain other hother
    obtain ⟨own, hown⟩ := LocaleTarget.exists_update_of_placeable hr hplain
      (hu.placeable other hother) (hu.permitted other hother)
    have hput' := (LocaleTarget.placed_of_update hr hplain hown).2.2.2
    refine ⟨own, _, (other.file t keys).2, hown, ?_, ?_⟩
    · rw [hput'.entry?, LocaleTarget.file, FileTree.entryAfter_single, if_pos rfl]
    · exact (hfiles _ _).mpr (entry?_of_mem hput hu hother)
  · rw [List.take_left]
    intro names hne content
    rw [hfiles]
    exact file_iff_of_forall_ne hput hu hr hne content

variable {a : ExtractArguments} {colored : Bool} {engine : Regex.Engine} {said : String}
  {e : ExtractError}

/-- What an extraction that fails with an error leaves: the tree as it was, or, where the error is
that of a locale, a tree in which the locales before that one are finished. -/
def ExtractError.Leaves (e : ExtractError) (a : ExtractArguments) (engine : Regex.Engine)
    (t t' : FileTree) : Prop :=
  match e with
  | .settings _ | .invalid _ | .patterns _ => t' = t
  | .locale name _ => ∃ plan catalog n target, Plan.make t a = .ok plan ∧
      plan.catalog engine = .ok catalog ∧ plan.targets[n]? = some target ∧ target.locale = name ∧
      FinishedUpTo n plan.targets (plan.keys t catalog) t t'

/-- An extraction that fails before it comes to the locales touches nothing. Any other that fails
does so at a locale, with those before it finished. -/
theorem extract_fails (hr : t.Rooted) (hs : SeparateLocales t a) (hdry : a.dryRun = false)
    (h : extract t a colored engine = (t', said, .error e)) : e.Leaves a engine t t' := by
  rcases extract_eq_error h with ⟨htree, hne⟩ | ⟨plan, catalog, hplan, hcatalog, hlocales⟩
  · cases e with
    | settings | invalid | patterns => exact htree
    | locale name cause => exact absurd rfl (hne name cause)
  · rw [hdry] at hlocales
    obtain ⟨n, target, cause, htarget, rfl, hfinished⟩ :=
      updateLocales_fails hr (hs plan hplan) hlocales
    exact ⟨plan, catalog, n, target, hplan, hcatalog, htarget, rfl, hfinished⟩

/-- A command line whose extraction ends with an error leaves what the failed extraction does: the
tree as it was, or one in which the locales before the failing one are finished. -/
theorem run_fails {args : List String} (hargs : parseArguments args = .ok (.extract a))
    (hdry : a.dryRun = false) (hr : t.Rooted) (hs : SeparateLocales t a)
    (h : (run t args colored engine).status = .error) :
    ∃ e, (extract t a colored engine).2.2 = .error e ∧
      e.Leaves a engine t (run t args colored engine).tree := by
  obtain ⟨said, e, hextract⟩ := exists_extract_of_run_eq_error hargs h
  exact ⟨e, congrArg (·.2.2) hextract, extract_fails hr hs hdry hextract⟩

/-- The second of three files may be read and not written: only the first one is written. -/
theorem run_fails_denied :
    let t : FileTree := {
      entries := .ofList [(["app"], .directory),
        (["app", "app.html"],
          .file "<p>\x7b\x7b 'menu.open' | translate \x7d\x7d</p>".toUTF8),
        (["home"], .directory), (["i18n"], .directory),
        (["i18n", "de.json"], .file "\x7b\"menu.open\": \"Auf\"\x7d".toUTF8)],
      working := ["home"]
      refused := fun names ↦
        if names = ["i18n", "de.json"] then some (.write, .permissionDenied) else none }
    let args := ["extract", "--locale", "en", "--locale", "de", "--locale", "fr",
      "--source-root", "../app", "--dest", "/i18n"]
    let a : ExtractArguments :=
      { locales := ["en", "de", "fr"], sourceRoot := "../app", dest := "/i18n" }
    parseArguments args = .ok (.extract a) ∧ t.Rooted ∧ SeparateLocales t a ∧
      (run t args false).status = .error ∧
      (run t args false).tree.entry? ["i18n", "en.json"] =
        some (.file "\x7b\n    \"menu.open\": \"\"\n\x7d\n".toUTF8) ∧
      (run t args false).tree.entry? ["i18n", "fr.json"] = none ∧
      ∃ plan catalog n target, Plan.make t a = .ok plan ∧ plan.catalog = .ok catalog ∧
        plan.targets[n]? = some target ∧ target.locale = "de" ∧
        FinishedUpTo n plan.targets (plan.keys t catalog) t (run t args false).tree := by
  intro t args a
  have hargs : parseArguments args = .ok (.extract a) := by decide +kernel
  have hr : t.Rooted := by decide +kernel
  have hs : SeparateLocales t a := by decide +kernel
  obtain ⟨hstatus, hentries⟩ : (run t args false).status = .error ∧
      (run t args false).tree.entry? ["i18n", "en.json"] =
        some (.file "\x7b\n    \"menu.open\": \"\"\n\x7d\n".toUTF8) ∧
      (run t args false).tree.entry? ["i18n", "fr.json"] = none := by decide +kernel
  have hfails : (match (extract t a false).2.2 with
      | .error e => decide
        (e = .locale "de" (.file ⟨"/i18n/de.json"⟩ (.refused .permissionDenied)))
      | .ok _ => false) = true := by decide +kernel
  obtain ⟨e, he, hfinished⟩ := run_fails hargs rfl hr hs hstatus
  rw [he] at hfails
  obtain rfl := of_decide_eq_true hfails
  exact ⟨hargs, hr, hs, hstatus, hentries.1, hentries.2, hfinished⟩

end KeyHarvest.Command
