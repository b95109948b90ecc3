import KeyHarvest.Proofs.Command.Locales

/-!
# What an extraction does

An extraction without a plan or without a catalog fails and touches nothing. Any other goes as the
updates of its locales go, with the keys found in the sources before the first of them
(`extract_eq_ok`, `exists_extract`, `extract_eq_error`).

A command line that calls the extraction leaves the tree that it leaves, and ends with an error
exactly if it fails (`exists_extract_of_run`, `exists_extract_of_run_eq_error`).
-/

namespace KeyHarvest.Command

/-- The keys in the sources of a plan. -/
def Plan.keys (p : Plan) (t : FileTree) (catalog : Catalog) : Extracted :=
  (catalog.harvest t (t.scan p.sourceDirectory p.scanOptions).files).keys

/-- The locales that an extraction is to update have paths of their own. -/
def SeparateLocales (t : FileTree) (a : ExtractArguments) : Prop :=
  ∀ plan, Plan.make t a = .ok plan → Separate t plan.targets

instance (t : FileTree) (a : ExtractArguments) : Decidable (SeparateLocales t a) :=
  match h : Plan.make t a with
  | .ok plan => decidable_of_iff (Separate t plan.targets) (by simp [SeparateLocales, h])
  | .error e => isTrue (by simp [SeparateLocales, h])

variable {t t' : FileTree} {a : ExtractArguments} {colored : Bool} {engine : Regex.Engine}
  {said : String}

/-- An extraction that succeeds has updated its locales. -/
theorem extract_eq_ok {s : ExtractSummary} (h : extract t a colored engine = (t', said, .ok s)) :
    ∃ plan catalog, Plan.make t a = .ok plan ∧ plan.catalog engine = .ok catalog ∧
      updateLocales (plan.keys t catalog) a.dryRun t plan.targets = (t', .ok s.locales) ∧
      s.isDryRun = a.dryRun := by
  unfold extract at h
  cases hplan : Plan.make t a with
  | error e =>
    simp only [hplan] at h
    cases h
  | ok plan =>
    cases hcatalog : plan.catalog engine with
    | error e =>
      simp only [hplan, hcatalog] at h
      cases h
    | ok catalog =>
      simp only [hplan, hcatalog] at h
      split at h
      · cases h
      · next hlocales =>
        cases h
        exact ⟨plan, catalog, rfl, hcatalog, hlocales, rfl⟩

/-- An extraction whose locales are updated succeeds. -/
theorem exists_extract (colored : Bool) {plan : Plan} {catalog : Catalog}
    {outcomes : List LocaleOutcome}
    (hplan : Plan.make t a = .ok plan) (hcatalog : plan.catalog engine = .ok catalog)
    (h : updateLocales (plan.keys t catalog) a.dryRun t plan.targets = (t', .ok outcomes)) :
    ∃ said s, extract t a colored engine = (t', said, .ok s) ∧ s.locales = outcomes := by
  unfold Plan.keys at h
  unfold extract
  simp only [hplan, hcatalog, h]
  exact ⟨_, _, rfl, rfl⟩

/-- An extraction that fails has touched nothing, or a locale could not be updated. -/
theorem extract_eq_error {e : ExtractError}
    (h : extract t a colored engine = (t', said, .error e)) :
    t' = t ∧ (∀ name cause, e ≠ .locale name cause) ∨
    ∃ plan catalog, Plan.make t a = .ok plan ∧ plan.catalog engine = .ok catalog ∧
      updateLocales (plan.keys t catalog) a.dryRun t plan.targets = (t', .error e) := by
  unfold extract at h
  cases hplan : Plan.make t a with
  | error e =>
    simp only [hplan] at h
    cases h
    refine .inl ⟨rfl, ?_⟩
    rintro name cause rfl
    unfold Plan.make at hplan
    dsimp only at hplan
    split at hplan <;> cases hplan
  | ok plan =>
    cases hcatalog : plan.catalog engine with
    | error e =>
      simp only [hplan, hcatalog] at h
      cases h
      refine .inl ⟨rfl, ?_⟩
      rintro name cause rfl
      unfold Plan.catalog at hcatalog
      split at hcatalog
      · cases hcatalog
      · cases hbuilt : Catalog.ofOptions plan.config.catalogOptions engine <;>
          rw [hbuilt] at hcatalog <;> cases hcatalog
    | ok catalog =>
      simp only [hplan, hcatalog] at h
      split at h
      · next hlocales =>
        cases h
        exact .inr ⟨plan, catalog, rfl, hcatalog, hlocales⟩
      · cases h

/-! ### Command lines -/

/-- A run leaves the tree that its extraction leaves. -/
theorem tree_runExtract (t : FileTree) (a : ExtractArguments) (colored : Bool)
    (engine : Regex.Engine) :
    (runExtract t a colored engine).tree = (extract t a colored engine).1 := by
  unfold runExtract
  split <;> next h => rw [h]

/-- A summary is no error. -/
theorem exitStatus_extract_ne_error (s : ExtractSummary) :
    (Summary.extract s).exitStatus ≠ .error := by
  rw [Summary.exitStatus]
  split <;> simp

variable {args : List String}

/-- A command line that calls the extraction runs it. -/
theorem run_extract (hargs : parseArguments args = .ok (.extract a)) (t : FileTree)
    (colored : Bool) (engine : Regex.Engine) :
    run t args colored engine = runExtract t a colored engine := by
  unfold run
  rw [hargs]

/-- A run that ends without an error has reported a summary. -/
theorem exists_extract_of_run (hargs : parseArguments args = .ok (.extract a))
    (h : (run t args colored engine).status ≠ .error) :
    ∃ said s, extract t a colored engine = ((run t args colored engine).tree, said, .ok s) := by
  rw [run_extract hargs] at h ⊢
  unfold runExtract at h ⊢
  split at h
  · exact absurd rfl h
  · next hextract => exact ⟨_, _, hextract⟩

/-- A run that ends with an error has failed. -/
theorem exists_extract_of_run_eq_error (hargs : parseArguments args = .ok (.extract a))
    (h : (run t args colored engine).status = .error) :
    ∃ said e, extract t a colored engine = ((run t args colored engine).tree, said, .error e) := by
  rw [run_extract hargs] at h ⊢
  unfold runExtract at h ⊢
  split at h
  · next hextract => exact ⟨_, _, hextract⟩
  · exact absurd h (exitStatus_extract_ne_error _)

end KeyHarvest.Command
