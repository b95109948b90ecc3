import KeyHarvest.Proofs.Command.Extract
import Mathlib.Data.List.Nodup
import Mathlib.Data.List.Pairwise

/-!
# Independence of locales

An extraction that succeeds for some locales does so for any of them alone, for each with the same
outcome and the same file, and for the same locales in any order, however often each is named, with
the same tree (`extract_locales_independent`, `tree_run_of_mem_iff`).
-/

namespace KeyHarvest.Command

variable {t t' : FileTree} {keys : Extracted} {targets targets' : List LocaleTarget}

/-! ### Some of the locales -/

/-- What holds between any two members of a list holds between those of a list of some of them. -/
theorem pairwise_of_subset {R : LocaleTarget → LocaleTarget → Prop} (hR : ∀ {a b}, R a b → R b a)
    (h : targets.Pairwise R) (hnodup : targets'.Nodup) (hsub : targets' ⊆ targets) :
    targets'.Pairwise R := by
  have : Std.Symm R := ⟨fun _ _ ↦ hR⟩
  exact hnodup.pairwise_of_forall_ne fun a ha b hb hne ↦ h.forall (hsub ha) (hsub hb) hne

/-- Some of the locales that are separate are. -/
theorem Separate.of_subset (h : Separate t targets) (hnodup : targets'.Nodup)
    (hsub : targets' ⊆ targets) : Separate t targets' :=
  ⟨fun target htarget ↦ h.plain target (hsub htarget),
    pairwise_of_subset Ne.symm h.distinct hnodup hsub⟩

/-- Some of the locales that can be updated can be. -/
theorem Updatable.of_subset (h : Updatable t keys targets) (hnodup : targets'.Nodup)
    (hsub : targets' ⊆ targets) : Updatable t keys targets' :=
  ⟨fun target htarget ↦ h.placeable target (hsub htarget),
    fun target htarget ↦ h.permitted target (hsub htarget),
    pairwise_of_subset Apart.symm h.apart hnodup hsub⟩

/-- A list without its repetitions has no repetitions. -/
theorem nodup_eraseDups (l : List String) : l.eraseDups.Nodup := by
  match l with
  | [] => exact List.nodup_nil
  | a :: l =>
    rw [List.eraseDups_cons, List.nodup_cons]
    refine ⟨fun h ↦ ?_, nodup_eraseDups _⟩
    simp [List.mem_eraseDups] at h
termination_by l.length
decreasing_by exact Nat.lt_succ_of_le (List.length_filter_le _ _)

/-! ### Plans for other locales -/

namespace Plan

/-- The plan for other locales. -/
def withLocales (p : Plan) (locales : List String) : Plan :=
  { p with config := { p.config with locales } }

/-- How a plan updates a locale. -/
def target (p : Plan) (locale : String) : LocaleTarget :=
  { dest := p.dest
    front := p.config.front
    back := p.config.back
    locale
    options := p.config.mergeOptions locale }

variable {p : Plan} {a : ExtractArguments} {engine : Regex.Engine} {locales : List String}

/-- A plan updates each of its locales once. -/
theorem targets_eq (p : Plan) : p.targets = p.config.locales.eraseDups.map p.target := rfl

/-- The plan for other locales updates each of these once, as the plan does. -/
theorem targets_withLocales (p : Plan) (locales : List String) :
    (p.withLocales locales).targets = locales.eraseDups.map p.target := rfl

/-- The keys of a plan do not depend on its locales. -/
theorem keys_withLocales (p : Plan) (locales : List String) (t : FileTree) (catalog : Catalog) :
    (p.withLocales locales).keys t catalog = p.keys t catalog := rfl

/-- No locale is updated twice. -/
theorem nodup_targets_withLocales (p : Plan) (locales : List String) :
    (p.withLocales locales).targets.Nodup :=
  (nodup_eraseDups locales).map fun _ _ h ↦ congrArg LocaleTarget.locale h

/-- The plan for some of the locales updates some of what the plan updates. -/
theorem targets_withLocales_subset (h : ∀ l ∈ locales, l ∈ p.config.locales) :
    (p.withLocales locales).targets ⊆ p.targets := by
  rw [targets_withLocales, targets_eq]
  apply List.map_subset
  intro l hl
  exact List.mem_eraseDups.mpr (h l (List.mem_eraseDups.mp hl))

/-- Locales that are asked for replace those of the settings and change nothing else. -/
theorem make_locales (h : make t a = .ok p) (hne : locales ≠ []) :
    make t { a with locales } = .ok (p.withLocales locales) := by
  unfold make at h ⊢
  dsimp only at h ⊢
  split at h
  · cases h
  · cases h
    simp [applyArguments, withLocales, hne]

/-- Settings that pass do so with any of their locales. -/
theorem invalid?_of_subset {c : Config} (h : c.invalid? = none) (hne : locales ≠ [])
    (hsub : ∀ l ∈ locales, l ∈ c.locales) : { c with locales }.invalid? = none := by
  unfold Config.invalid? at h ⊢
  have hempty : locales.isEmpty = false := by simpa using hne
  split at h
  · cases h
  split at h
  · cases h
  · next hblank =>
    have hblank' : locales.find? (fun l ↦ (Text.trim l.toList).isEmpty) = none :=
      List.find?_eq_none.mpr fun l hl ↦ List.find?_eq_none.mp hblank l (hsub l hl)
    simpa only [hempty, hblank', Bool.false_eq_true, if_false] using h

/-- Settings with a catalog have passed. -/
theorem invalid?_of_catalog {catalog : Catalog} (h : p.catalog engine = .ok catalog) :
    p.config.invalid? = none := by
  unfold Plan.catalog at h
  split at h
  · cases h
  · assumption

/-- Settings with a catalog have locales. -/
theorem locales_ne_nil {catalog : Catalog} (h : p.catalog engine = .ok catalog) :
    p.config.locales ≠ [] := by
  intro hnil
  have hvalid := invalid?_of_catalog h
  unfold Config.invalid? at hvalid
  rw [hnil] at hvalid
  cases hvalid

/-- The plan for some of the locales has the same catalog. -/
theorem catalog_withLocales {catalog : Catalog} (h : p.catalog engine = .ok catalog)
    (hne : locales ≠ []) (hsub : ∀ l ∈ locales, l ∈ p.config.locales) :
    (p.withLocales locales).catalog engine = .ok catalog := by
  have hvalid := invalid?_of_catalog h
  unfold Plan.catalog at h ⊢
  rw [withLocales, invalid?_of_subset hvalid hne hsub]
  simp only [hvalid] at h ⊢
  exact h

end Plan

variable {a : ExtractArguments} {colored : Bool} {engine : Regex.Engine} {said : String}
  {plan : Plan} {catalog : Catalog}

/-- An extraction for some of the locales that have been updated updates these, each as before. -/
theorem exists_extract_withLocales (colored : Bool) (hr : t.Rooted) (hs : Separate t plan.targets)
    (hu : Updatable t (plan.keys t catalog) plan.targets) (hplan : Plan.make t a = .ok plan)
    (hcatalog : plan.catalog engine = .ok catalog) (hdry : a.dryRun = false) {locales : List String}
    (hne : locales ≠ []) (hsub : ∀ l ∈ locales, l ∈ plan.config.locales) :
    ∃ t' said s, extract t { a with locales } colored engine = (t', said, .ok s) ∧
      s.locales = (locales.eraseDups.map plan.target).map
        (·.outcome t (plan.keys t catalog) false) ∧
      t.Placed t' ((locales.eraseDups.map plan.target).map (·.file t (plan.keys t catalog))) := by
  have hnodup := plan.nodup_targets_withLocales locales
  have hsubset := Plan.targets_withLocales_subset hsub
  obtain ⟨t', outcomes, hlocales⟩ := exists_updateLocales hr (hs.of_subset hnodup hsubset)
    (hu.of_subset hnodup hsubset)
  obtain ⟨-, houtcomes, hput⟩ := updateLocales_eq_ok hr (hs.of_subset hnodup hsubset) hlocales
  obtain ⟨said, s, hextract, hslocales⟩ := exists_extract (a := { a with locales })
    colored (Plan.make_locales hplan hne) (Plan.catalog_withLocales hcatalog hne hsub)
    (by rw [Plan.keys_withLocales, hdry]; exact hlocales)
  exact ⟨t', said, s, hextract, hslocales.trans houtcomes, hput⟩

/-- An extraction for one of the locales that have been updated has the same outcome for it and
leaves the same file. -/
theorem exists_extract_alone (colored : Bool) (hr : t.Rooted) (hs : Separate t plan.targets)
    (hu : Updatable t (plan.keys t catalog) plan.targets) (hplan : Plan.make t a = .ok plan)
    (hcatalog : plan.catalog engine = .ok catalog) (hdry : a.dryRun = false)
    (hput : t.Placed t' (plan.targets.map (·.file t (plan.keys t catalog)))) {l : String}
    (hl : l ∈ plan.config.locales) :
    ∃ alone said s, extract t { a with locales := [l] } colored engine = (alone, said, .ok s) ∧
      s.locales = [(plan.target l).outcome t (plan.keys t catalog) false] ∧
      ∃ content, alone.readBytes (plan.target l).path = .ok content ∧
        t'.readBytes (plan.target l).path = .ok content := by
  have htarget : plan.target l ∈ plan.targets :=
    List.mem_map.mpr ⟨l, List.mem_eraseDups.mpr hl, rfl⟩
  have hsubset : [plan.target l] ⊆ plan.targets := List.forall_mem_singleton.mpr htarget
  have hone : [l].eraseDups.map plan.target = [plan.target l] := by simp [List.eraseDups_cons]
  obtain ⟨alone, said, s, hextract, houtcomes, halone⟩ := exists_extract_withLocales
    colored hr hs hu hplan hcatalog hdry (List.cons_ne_nil l []) (List.forall_mem_singleton.mpr hl)
  rw [hone] at houtcomes halone
  exact ⟨alone, said, s, hextract, houtcomes, _,
    readBytes_of_mem halone (hu.of_subset (List.nodup_singleton _) hsubset) hr
      (hs.of_subset (List.nodup_singleton _) hsubset) (List.mem_singleton_self _),
    readBytes_of_mem hput hu hr hs htarget⟩

/-- An extraction for the locales that have been updated, in another order or with other
repetitions, leaves the same tree. -/
theorem exists_extract_of_mem_iff (colored : Bool) (hr : t.Rooted) (hs : Separate t plan.targets)
    (hu : Updatable t (plan.keys t catalog) plan.targets) (hplan : Plan.make t a = .ok plan)
    (hcatalog : plan.catalog engine = .ok catalog) (hdry : a.dryRun = false)
    (hput : t.Placed t' (plan.targets.map (·.file t (plan.keys t catalog))))
    {locales : List String} (hmem : ∀ l, l ∈ locales ↔ l ∈ plan.config.locales) :
    ∃ said s, extract t { a with locales } colored engine = (t', said, .ok s) ∧
      s.locales.Perm (plan.targets.map (·.outcome t (plan.keys t catalog) false)) := by
  have hne : locales ≠ [] := by
    rintro rfl
    obtain ⟨l, hl⟩ := List.exists_mem_of_ne_nil _ (Plan.locales_ne_nil hcatalog)
    cases (hmem l).mpr hl
  obtain ⟨u, said, s, hextract, houtcomes, hput'⟩ := exists_extract_withLocales
    colored hr hs hu hplan hcatalog hdry hne fun l hl ↦ (hmem l).mp hl
  have hperm : (locales.eraseDups.map plan.target).Perm plan.targets := by
    rw [Plan.targets_eq]
    refine List.Perm.map _ ?_
    rw [List.perm_ext_iff_of_nodup (nodup_eraseDups _) (nodup_eraseDups _)]
    intro l
    rw [List.mem_eraseDups, List.mem_eraseDups, hmem]
  -- Both trees hold the same files and are else as the one before.
  obtain rfl : t' = u :=
    hput.unique hput' (hperm.map _).symm hu.nodup_names
  exact ⟨said, s, hextract, houtcomes ▸ hperm.map _⟩

/-- An extraction that succeeds has a plan whose locales can all be updated, and leaves what their
updates do. -/
theorem exists_plan_of_extract {s : ExtractSummary} (hr : t.Rooted) (hs : SeparateLocales t a)
    (hdry : a.dryRun = false) (h : extract t a colored engine = (t', said, .ok s)) :
    ∃ plan catalog, Plan.make t a = .ok plan ∧ plan.catalog engine = .ok catalog ∧
      Separate t plan.targets ∧ Updatable t (plan.keys t catalog) plan.targets ∧
      s.locales = plan.targets.map (·.outcome t (plan.keys t catalog) false) ∧
      t.Placed t' (plan.targets.map (·.file t (plan.keys t catalog))) := by
  obtain ⟨plan, catalog, hplan, hcatalog, hlocales, -⟩ := extract_eq_ok h
  rw [hdry] at hlocales
  obtain ⟨hu, houtcomes, hput⟩ := updateLocales_eq_ok hr (hs plan hplan) hlocales
  exact ⟨plan, catalog, hplan, hcatalog, hs plan hplan, hu, houtcomes, hput⟩

/-- When an extraction succeeds, each of its locales comes to the same alone: the outcome is the
same and so is the file. There is one outcome for each locale of the settings in force, and the same
locales in any order, however often each is named, lead to the same tree. -/
theorem extract_locales_independent {s : ExtractSummary} (hr : t.Rooted)
    (hs : SeparateLocales t a) (hdry : a.dryRun = false)
    (h : extract t a colored engine = (t', said, .ok s)) :
    (∀ o ∈ s.locales, ∃ alone said' s',
      extract t { a with locales := [o.locale] } colored engine = (alone, said', .ok s') ∧
      s'.locales = [o] ∧
      ∃ content, alone.readBytes o.path = .ok content ∧ t'.readBytes o.path = .ok content) ∧
    (s.locales.map (·.locale)).Nodup ∧
    ∃ plan, Plan.make t a = .ok plan ∧
      (∀ l, l ∈ s.locales.map (·.locale) ↔ l ∈ plan.config.locales) ∧
      ∀ locales : List String, (∀ l, l ∈ locales ↔ l ∈ plan.config.locales) →
        ∃ said' s', extract t { a with locales } colored engine = (t', said', .ok s') ∧
          s'.locales.Perm s.locales := by
  obtain ⟨plan, catalog, hplan, hcatalog, hsep, hu, houtcomes, hput⟩ :=
    exists_plan_of_extract hr hs hdry h
  have hnames : s.locales.map (·.locale) = plan.config.locales.eraseDups := by
    rw [houtcomes, Plan.targets_eq, List.map_map, List.map_map]
    exact List.map_id _
  refine ⟨fun o ho ↦ ?_, hnames ▸ nodup_eraseDups _, plan, hplan, fun l ↦ ?_, fun locales hmem ↦ ?_⟩
  · rw [houtcomes] at ho
    obtain ⟨target, htarget, rfl⟩ := List.mem_map.mp ho
    obtain ⟨l, hl, rfl⟩ := List.mem_map.mp htarget
    exact exists_extract_alone colored hr hsep hu hplan hcatalog hdry hput
      (List.mem_eraseDups.mp hl)
  · rw [hnames, List.mem_eraseDups]
  · rw [houtcomes]
    exact exists_extract_of_mem_iff colored hr hsep hu hplan hcatalog hdry hput hmem

/-- Two locales, one named twice, and an old file for one of them, outside the working directory. -/
theorem extract_locales_independent_menu :
    let t : FileTree := {
      entries := .ofList [(["app"], .directory),
        (["app", "app.html"],
          .file "<p>\x7b\x7b 'menu.open' | translate \x7d\x7d</p>".toUTF8),
        (["home"], .directory), (["i18n"], .directory),
        (["i18n", "de.json"], .file "\x7b\"menu.open\": \"Auf\"\x7d".toUTF8)],
      working := ["home"] }
    let a : ExtractArguments :=
      { locales := ["en", "de", "en"], sourceRoot := "../app", dest := "/i18n" }
    t.Rooted ∧ SeparateLocales t a ∧ a.dryRun = false ∧
    ∃ t' said s, extract t a false = (t', said, .ok s) ∧
      s.locales.map (·.locale) = ["en", "de"] ∧
      (∀ o ∈ s.locales, ∃ alone said' s',
        extract t { a with locales := [o.locale] } false = (alone, said', .ok s') ∧
        s'.locales = [o] ∧
        ∃ content, alone.readBytes o.path = .ok content ∧ t'.readBytes o.path = .ok content) ∧
      ∃ said' s', extract t { a with locales := ["de", "en"] } false = (t', said', .ok s') ∧
        s'.locales.Perm s.locales := by
  intro t a
  have hr : t.Rooted := by decide +kernel
  have hs : SeparateLocales t a := by decide +kernel
  have hok : ((extract t a false).2.2.toOption.map fun s ↦ s.locales.map (·.locale)) =
      some ["en", "de"] := by decide +kernel
  have hconfig : ((Plan.make t a).toOption.map fun plan ↦ plan.config.locales) =
      some ["en", "de", "en"] := by decide +kernel
  cases h : extract t a false with
  | mk t' result =>
    obtain ⟨said, _ | s⟩ := result
    · rw [h] at hok
      cases hok
    rw [h] at hok
    obtain ⟨halone, -, plan, hplan, -, hany⟩ := extract_locales_independent hr hs rfl h
    rw [hplan] at hconfig
    have hlocales : plan.config.locales = ["en", "de", "en"] := Option.some.inj hconfig
    have hmem (l : String) : l ∈ ["de", "en"] ↔ l ∈ plan.config.locales := by
      rw [hlocales]
      simp only [List.mem_cons, List.not_mem_nil, or_false]
      tauto
    exact ⟨hr, hs, rfl, t', said, s, rfl, Option.some.inj hok, halone, hany _ hmem⟩

/-- Command lines for the locales of the settings in force, in any order and with any repetitions,
leave the tree that a successful one leaves. -/
theorem tree_run_of_mem_iff {args other : List String} {locales : List String}
    (hargs : parseArguments args = .ok (.extract a))
    (hother : parseArguments other = .ok (.extract { a with locales }))
    (hdry : a.dryRun = false) (hr : t.Rooted) (hs : SeparateLocales t a)
    (h : (run t args colored engine).status ≠ .error) (hplan : Plan.make t a = .ok plan)
    (hmem : ∀ l, l ∈ locales ↔ l ∈ plan.config.locales) :
    (run t other colored engine).tree = (run t args colored engine).tree := by
  obtain ⟨said, s, hextract⟩ := exists_extract_of_run hargs h
  obtain ⟨plan', catalog, hplan', hcatalog, hsep, hu, -, hput⟩ :=
    exists_plan_of_extract hr hs hdry hextract
  obtain rfl : plan = plan' := Except.ok.inj (hplan.symm.trans hplan')
  obtain ⟨said', s', hextract', -⟩ :=
    exists_extract_of_mem_iff colored hr hsep hu hplan hcatalog hdry hput hmem
  rw [run_extract hother, tree_runExtract, hextract']

end KeyHarvest.Command
