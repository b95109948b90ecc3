import KeyHarvest.Proofs.Dictionary.Counting
import KeyHarvest.Proofs.Dictionary.Depth
import KeyHarvest.Proofs.Json.Depth
import KeyHarvest.Proofs.Locale.Placing

/-!
# What an update writes is read back, or is not

The writer nests without limit, the reader stops at 127 objects and arrays. After an update the file
is loaded as the reconciled dictionary, up to the order of keys, unless nested keys go deeper than
that: then the file counts as invalid and the dictionary as empty (`load_update`).
-/

namespace KeyHarvest

open Json

namespace Dictionary

/-- The path of some key, with what its value is nested, is longer than the reader allows. -/
def HasDeepKey (d : Dictionary) : Prop :=
  ∃ key v, d.flatten.get? key = some v ∧ 128 ≤ (Extracted.pathOf key).length + v.nesting

private theorem one_lt_limit : (Json.object []).nesting < 128 := by decide

private theorem nesting_ofText (text : String) :
    (Json.object (ofText text).dictionary).nesting < 128 := by
  rw [ofText]
  split
  · next members h =>
    cases hp : parse text with
    | error e =>
      rw [Json.read, hp] at h
      cases h
    | ok v =>
      rw [Json.read, hp] at h
      cases h
      exact nesting_parse hp
  · exact one_lt_limit
  · exact one_lt_limit

/-- However a dictionary is loaded, it is nested no deeper than the reader allows. -/
theorem nesting_load (t : FileTree) (p : Path) :
    (Json.object (load t p).dictionary).nesting < 128 := by
  rw [load]
  split
  · split
    · exact nesting_ofText _
    · exact one_lt_limit
  · exact one_lt_limit

/-- A rendered dictionary that is nested deeper than the reader allows is refused for that
reason. -/
theorem ofText_render_of_deep {d : Dictionary} (hd : (Json.object d).Distinct)
    (hi : (Json.object d).Integral) (hn : 128 ≤ (Json.object d).nesting) :
    ∃ unread ahead, ofText d.render =
      ⟨[], .invalid (Fault.message ⟨.nestedTooDeep, unread, ahead⟩ d.render.toList)⟩ := by
  obtain ⟨unread, ahead, hparse⟩ := parse_pretty_of_deep 4 (distinct_sortKeys hd)
    (integral_sortKeys hd hi) (by rwa [nesting_sortKeys _ hd])
  refine ⟨unread, ahead, ?_⟩
  rw [ofText, Json.read]
  rw [← render] at hparse
  rw [hparse]
  rfl

/-- What stands at a whole key is carried over when that key is the only one and is nested. -/
theorem get?_flatten_reconcile_single {key : String} {v : Json} (ho : v.isObject = false)
    (hv : v ≠ .string "") {options : MergeOptions} (hn : options.namespaced = true) :
    (flatten (reconcile (.ofList [(key, "")]) [(key, v)] options).dictionary).get? key = some v ∧
      (reconcile (.ofList [(key, "")]) [(key, v)] options).stats.updated = 1 := by
  have hflat : IsFlat [(key, v)] := by simpa [IsFlat] using ho
  have hnodup : ([(key, v)].map Prod.fst).Nodup := by simp
  have hfound : (flatten [(key, v)]).get? key = some v := by
    rw [get?_flatten_of_isFlat hflat hnodup]
    exact if_pos rfl
  -- Nothing else is extracted, so nothing begins with the key.
  have hvisible : key ∉ Extracted.shadowed (.ofList [(key, "")]) := by
    rw [Extracted.mem_shadowed_iff]
    rintro ⟨-, path, hkey, other, hother, longer, hlonger, -, hne⟩
    rw [List.mem_singleton.mp hother, hkey] at hlonger
    exact hne (Option.some.inj hlonger)
  rw [reconcile, if_pos hn]
  constructor
  · rw [get?_flatten_reconcileNested, if_pos ⟨List.mem_singleton_self key, hvisible⟩, settledLeaf,
      readsBack_of_isFlat hflat hnodup key, hfound, Option.getD_some,
      MergeOptions.settle_of_ne_blank _ _ hv]
  · rw [reconcileNested, statsNested_eq]
    change [key].countP (flatten [(key, v)]).contains = 1
    rw [List.countP_singleton, KeyMap.contains, hfound]
    rfl

end Dictionary

namespace LocaleTarget

section

variable {target : LocaleTarget} {t t' : FileTree} {keys : Extracted} {outcome : LocaleOutcome}

/-- What an update leaves is loaded as its text is. -/
theorem load_of_update (h : target.update t keys false = (t', .ok outcome)) :
    Dictionary.load t' target.path =
      Dictionary.ofText (target.reconciled t keys).dictionary.render :=
  Dictionary.load_of_readText (target.readText_of_update h)

private theorem distinct_reconciled (target : LocaleTarget) (t : FileTree) (keys : Extracted) :
    (Json.object (target.reconciled t keys).dictionary).Distinct :=
  Dictionary.distinct_reconcile keys (Dictionary.distinct_load t target.path) target.options

private theorem integral_reconciled (keys : Extracted)
    (hi : (Json.object (Dictionary.load t target.path).dictionary).Integral) :
    (Json.object (target.reconciled t keys).dictionary).Integral :=
  Dictionary.integral_reconcile keys hi target.options

/-- Only keys that are nested take a dictionary deeper than the reader allows. -/
theorem le_nesting_reconciled_iff (target : LocaleTarget) (t : FileTree) (keys : Extracted) :
    128 ≤ (Json.object (target.reconciled t keys).dictionary).nesting ↔
      target.options.namespaced = true ∧ (target.reconciled t keys).dictionary.HasDeepKey :=
  Dictionary.le_nesting_reconcile_iff keys target.options (Dictionary.nesting_load t target.path)

/-- An update that nests a key too deep leaves a file that counts as invalid. -/
theorem load_of_update_of_hasDeepKey
    (hi : (Json.object (Dictionary.load t target.path).dictionary).Integral)
    (h : target.update t keys false = (t', .ok outcome)) (hn : target.options.namespaced = true)
    (hdeep : (target.reconciled t keys).dictionary.HasDeepKey) :
    ∃ unread ahead, Dictionary.load t' target.path =
      ⟨[], .invalid (Fault.message ⟨.nestedTooDeep, unread, ahead⟩
        (target.reconciled t keys).dictionary.render.toList)⟩ := by
  rw [load_of_update h]
  exact Dictionary.ofText_render_of_deep (target.distinct_reconciled t keys)
    (integral_reconciled keys hi) ((target.le_nesting_reconciled_iff t keys).mpr ⟨hn, hdeep⟩)

end

variable (target : LocaleTarget)

/-- What an update leaves is loaded as the reconciled dictionary, up to the order of keys, unless
keys are nested and one of them goes deeper than the reader allows: then nothing is loaded and the
file counts as invalid. The numbers in the dictionary before have to be integers of at most 64
bits. -/
theorem load_update {t t' : FileTree} {keys : Extracted} {outcome : LocaleOutcome}
    (hi : (Json.object (Dictionary.load t target.path).dictionary).Integral)
    (h : target.update t keys false = (t', .ok outcome)) :
    let d := (target.reconciled t keys).dictionary
    ((target.options.namespaced = true ∧ d.HasDeepKey) ∧
      ∃ unread ahead, Dictionary.load t' target.path =
        ⟨[], .invalid (Fault.message ⟨.nestedTooDeep, unread, ahead⟩ d.render.toList)⟩) ∨
    (¬ (target.options.namespaced = true ∧ d.HasDeepKey) ∧
      ∃ entries, Dictionary.load t' target.path = ⟨entries, .loaded⟩ ∧
        Reordered (.object d) (.object entries)) := by
  intro d
  by_cases hdeep : target.options.namespaced = true ∧ d.HasDeepKey
  · exact .inl ⟨hdeep, load_of_update_of_hasDeepKey hi h hdeep.1 hdeep.2⟩
  · have hdistinct : (Json.object d).Distinct := target.distinct_reconciled t keys
    have hn : (Json.object d).nesting < 128 :=
      Nat.lt_of_not_le ((target.le_nesting_reconciled_iff t keys).not.mpr hdeep)
    refine .inr ⟨hdeep, _, ?_, reordered_sortKeys (.object d) hdistinct⟩
    rw [load_of_update h]
    exact Dictionary.ofText_render hdistinct (integral_reconciled keys hi) hn

/-- A dictionary with a whole dotted key, beside the working directory, is written with its keys
nested, and read back. -/
theorem load_update_menu :
    let t : FileTree := {
      entries := .ofList [(["app"], .directory), (["i18n"], .directory),
        (["i18n", "en.json"], .file "\x7b\"z\": -1, \"menu.open\": \"Ouvrir\"\x7d".toUTF8)],
      working := ["app"] }
    let target : LocaleTarget := ⟨⟨"../i18n"⟩, "", ".json", "en", { namespaced := true }⟩
    let keys : Extracted := .ofList [("menu.open", ""), ("z", "")]
    (Json.object (Dictionary.load t target.path).dictionary).Integral ∧
    ∃ t' outcome entries, target.update t keys false = (t', .ok outcome) ∧
      Dictionary.load t' target.path = ⟨entries, .loaded⟩ ∧
      Reordered (.object (target.reconciled t keys).dictionary) (.object entries) := by
  intro t target keys
  have hi : (Json.object (Dictionary.load t target.path).dictionary).Integral := by
    decide +kernel
  have hok : (target.update t keys false).2.isOk = true := by decide +kernel
  have hloaded : (Dictionary.load (target.update t keys false).1 target.path).status = .loaded := by
    decide +kernel
  cases h : target.update t keys false with
  | mk t' result =>
    rw [h] at hok hloaded
    cases result with
    | error e => cases hok
    | ok outcome =>
      rcases target.load_update hi h with ⟨-, unread, ahead, hload⟩ | ⟨-, entries, hload, hsame⟩
      · rw [hload] at hloaded
        cases hloaded
      · exact ⟨hi, t', outcome, entries, rfl, hload, hsame⟩

/-- A file with the text of a whole key of 128 segments: the update that nests the key counts its
text as carried over, has it in the dictionary and succeeds. What it leaves is loaded as empty. -/
theorem load_update_deep_key :
    let key := dotted (List.replicate 128 "a")
    let t : FileTree := { entries := .ofList [(["i18n"], .directory),
      (["i18n", "en.json"], .file (Dictionary.render [(key, .string "x")]).toUTF8)] }
    let target : LocaleTarget := ⟨⟨"i18n"⟩, "", ".json", "en", { namespaced := true }⟩
    let keys : Extracted := .ofList [(key, "")]
    Dictionary.load t target.path = ⟨[(key, .string "x")], .loaded⟩ ∧
    ∃ t' outcome reason, target.update t keys false = (t', .ok outcome) ∧
      outcome.stats.updated = 1 ∧
      (target.reconciled t keys).dictionary.flatten.get? key = some (.string "x") ∧
      Dictionary.load t' target.path = ⟨[], .invalid reason⟩ := by
  intro key t target keys
  -- Where the file is.
  have hr : t.Rooted := by decide +kernel
  have hp : t.Plain target.path := by decide +kernel
  have hnames : target.path.names = ["i18n", "en.json"] := by decide +kernel
  have hspelled : t.spelled target.path = ["i18n", "en.json"] := by decide +kernel
  have hpieces : target.path.pieces = ["i18n"] ++ ["en.json"] := by decide +kernel
  have hentry : t.entry? (t.spelled target.path) =
      some (.file (Dictionary.render [(key, .string "x")]).toUTF8) := by
    rw [hspelled, FileTree.entry?_of_ne_nil t (by simp)]
    exact KeyMap.get?_ofList_of_nodup (by decide) _
  have hleads := (FileTree.leadsToEntry_iff hr hp hpieces (by decide) _ _).mpr
    ⟨rfl, by decide +kernel, by rw [hnames]; decide, fun _ _ _ ↦ rfl, hentry⟩
  have hplace := (FileTree.placed_of_leadsToEntry hr hp hleads).1
  -- What is in it.
  have hload : Dictionary.load t target.path = ⟨[(key, .string "x")], .loaded⟩ := by
    rw [Dictionary.load_of_readText (FileTree.readText_eq_ok_iff.mpr
      (FileTree.readBytes_eq_ok_iff.mpr ⟨_, hleads, rfl⟩))]
    exact Dictionary.ofText_render (d := [(key, .string "x")]) rfl rfl (by decide)
  -- What the update makes of it.
  obtain ⟨hresult, hupdated⟩ : (target.reconciled t keys).dictionary.flatten.get? key =
      some (.string "x") ∧ (target.reconciled t keys).stats.updated = 1 := by
    rw [reconciled, hload]
    exact Dictionary.get?_flatten_reconcile_single rfl (by decide) rfl
  have hpath : Extracted.pathOf key = List.replicate 128 "a" := by
    refine Extracted.pathOf_dotted (by simp) fun s hs ↦ ?_
    rw [List.eq_of_mem_replicate hs]
    exact ⟨by decide, by decide⟩
  have hdeep : (target.reconciled t keys).dictionary.HasDeepKey := by
    refine ⟨key, .string "x", hresult, ?_⟩
    rw [hpath, List.length_replicate]
    exact Nat.le_add_right 128 _
  have hpermitted : target.Permitted t keys := fun _ ↦ rfl
  obtain ⟨t', hupdate⟩ := exists_update_of_placeable hr hp hplace hpermitted
  obtain ⟨unread, ahead, hinvalid⟩ :=
    load_of_update_of_hasDeepKey (by rw [hload]; rfl) hupdate rfl hdeep
  exact ⟨hload, t', _, _, hupdate, hupdated, hresult, hinvalid⟩

end LocaleTarget

end KeyHarvest
