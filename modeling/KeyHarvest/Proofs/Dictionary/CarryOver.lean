import KeyHarvest.Proofs.Dictionary.Reconciliation

/-!
# Texts carried over into namespaced results

A key counts as updated when flattening lists a leaf under it, but its text is carried over only if
the key leads to a leaf: at its path or, where no leaf is there, whole at the top. For such keys the
result has that leaf; for all others it has what takes the place of the empty text
(`carriesOver_iff`). A leaf that stands anywhere else, as under `b.c` inside `a`, is counted and
lost (`updated_key_loses_text`).
-/

namespace KeyHarvest

open Json Dictionary

namespace Dictionary

/-- A key leads to a leaf: the one at its path, or the one under the whole key if no leaf is at its
path. -/
def LeadsTo (d : Dictionary) (key : String) (v : Json) : Prop :=
  v.isObject = false ∧ (d.getAt? (Extracted.pathOf key) = some v ∨
    (∀ w, d.getAt? (Extracted.pathOf key) = some w → w.isObject = true) ∧ d.get? key = some v)

/-- A namespaced reconciliation gives a key the text of a persisted leaf of the key. -/
def CarriesOver (keys : Extracted) (d : Dictionary) (options : MergeOptions) (key : String) :
    Prop :=
  ∃ v, v ≠ .string "" ∧ (key, v) ∈ memberLeaves "" d ∧
    (reconcile keys d options).dictionary.flatten.get? key = some v

/-- A visible key has the leaf it leads to, settled. -/
theorem get?_flatten_reconcile_of_leadsTo (keys : Extracted) {d : Dictionary}
    {options : MergeOptions} (hns : options.namespaced = true) {key : String}
    (hk : key ∈ keys.keys) (hs : key ∉ keys.shadowed) {v : Json} (hv : d.LeadsTo key v) :
    (reconcile keys d options).dictionary.flatten.get? key = some (options.settle key v) := by
  rw [reconcile, if_pos hns, get?_flatten_reconcileNested, if_pos ⟨hk, hs⟩, settledLeaf,
    (found?_eq_some_iff d key v).mpr hv, Option.getD_some]

/-- A visible key that leads to no leaf but the empty text has what takes its place. -/
theorem get?_flatten_reconcile_of_not_leadsTo (keys : Extracted) {d : Dictionary}
    {options : MergeOptions} (hns : options.namespaced = true) {key : String}
    (hk : key ∈ keys.keys) (hs : key ∉ keys.shadowed)
    (hv : ∀ v, d.LeadsTo key v → v = .string "") :
    (reconcile keys d options).dictionary.flatten.get? key = some (options.emptyValue key) := by
  have hblank : (d.found? key).getD (.string "") = .string "" := by
    cases hf : d.found? key with
    | none => rfl
    | some v => exact hv v ((found?_eq_some_iff d key v).mp hf)
  rw [reconcile, if_pos hns, get?_flatten_reconcileNested, if_pos ⟨hk, hs⟩, settledLeaf, hblank]
  rfl

/-- The text of a visible key is carried over, whatever takes the place of empty texts, exactly if
the key leads to a leaf other than the empty text; it is then the text of that leaf. Otherwise the
key has what takes the place of the empty text. -/
theorem carriesOver_iff (keys : Extracted) {d : Dictionary} (hd : (Json.object d).Distinct)
    {key : String} (hk : key ∈ keys.keys) (hs : key ∉ keys.shadowed) :
    ((∀ options : MergeOptions, options.namespaced = true → CarriesOver keys d options key) ↔
      ∃ v, v ≠ .string "" ∧ d.LeadsTo key v) ∧
    ∀ options : MergeOptions, options.namespaced = true →
      (∀ v, v ≠ .string "" → d.LeadsTo key v → (key, v) ∈ memberLeaves "" d ∧
        (reconcile keys d options).dictionary.flatten.get? key = some v) ∧
      ((∀ v, d.LeadsTo key v → v = .string "") →
        (reconcile keys d options).dictionary.flatten.get? key =
          some (options.emptyValue key)) := by
  have carried (options : MergeOptions) (hns : options.namespaced = true) (v : Json)
      (hne : v ≠ .string "") (hv : d.LeadsTo key v) : (key, v) ∈ memberLeaves "" d ∧
        (reconcile keys d options).dictionary.flatten.get? key = some v := by
    refine ⟨mem_memberLeaves_of_found? hd ((found?_eq_some_iff d key v).mpr hv), ?_⟩
    rw [get?_flatten_reconcile_of_leadsTo keys hns hk hs hv, options.settle_of_ne_blank key hne]
  have lost (options : MergeOptions) (hns : options.namespaced = true) :=
    get?_flatten_reconcile_of_not_leadsTo (d := d) keys hns hk hs
  refine ⟨⟨?_, ?_⟩, fun options hns ↦ ⟨carried options hns, lost options hns⟩⟩
  · intro hc
    -- Where empty texts stay empty, a text that is not carried over is the empty one.
    by_cases hv : ∃ v, v ≠ .string "" ∧ d.LeadsTo key v
    · exact hv
    · have hblank : ∀ v, d.LeadsTo key v → v = .string "" :=
        fun v hl ↦ Decidable.not_not.mp fun hne ↦ hv ⟨v, hne, hl⟩
      obtain ⟨v, hne, -, hg⟩ := hc { namespaced := true } rfl
      rw [lost { namespaced := true } rfl hblank] at hg
      cases hg
      exact absurd rfl hne
  · rintro ⟨v, hne, hv⟩ options hns
    exact ⟨v, hne, carried options hns v hne hv⟩

/-- A text under a whole dotted key is carried over although nothing is at the path of the key. -/
theorem carriesOver_whole_key :
    let keys : Extracted := .ofList [("menu.open", "Open")]
    let d : Dictionary := [("menu.open", .string "Ouvrir")]
    (Json.object d).Distinct ∧ "menu.open" ∈ keys.keys ∧ "menu.open" ∉ keys.shadowed ∧
      ∀ options : MergeOptions, options.namespaced = true →
        CarriesOver keys d options "menu.open" := by
  intro keys d
  have hd : (Json.object d).Distinct := by decide
  have hk : "menu.open" ∈ keys.keys := by decide +kernel
  have hs : "menu.open" ∉ keys.shadowed := by decide +kernel
  refine ⟨hd, hk, hs, (carriesOver_iff keys hd hk hs).1.mpr ?_⟩
  have hat : d.getAt? (Extracted.pathOf "menu.open") = none := by decide +kernel
  exact ⟨.string "Ouvrir", by decide, rfl, .inr ⟨by simp [hat], by decide⟩⟩

/-- A text under a dotted key inside an object is counted as updated and lost. -/
theorem updated_key_loses_text :
    let keys : Extracted := .ofList [("a.b.c", "")]
    let d : Dictionary := [("a", .object [("b.c", .string "x")])]
    let options : MergeOptions := { namespaced := true }
    (Json.object d).Distinct ∧ "a.b.c" ∈ keys.keys ∧
      "a.b.c" ∉ (reconcile keys d options).shadowed ∧
      d.flatten.get? "a.b.c" = some (.string "x") ∧ (reconcile keys d options).stats.updated = 1 ∧
      (reconcile keys d options).dictionary.flatten.get? "a.b.c" = some (.string "") ∧
      ¬ CarriesOver keys d options "a.b.c" := by
  intro keys d options
  have hr : reconcile keys d options =
      ⟨[("a", .object [("b", .object [("c", .string "")])])],
        { total := 1, updated := 1, empty := 1 }, []⟩ := by decide +kernel
  have hg : (reconcile keys d options).dictionary.flatten.get? "a.b.c" = some (.string "") := by
    rw [hr]
    decide +kernel
  refine ⟨by decide, by decide +kernel, by rw [hr]; simp, by decide +kernel, by rw [hr], hg, ?_⟩
  rintro ⟨v, hne, -, hv⟩
  rw [hg] at hv
  cases hv
  exact hne rfl

end Dictionary

end KeyHarvest
