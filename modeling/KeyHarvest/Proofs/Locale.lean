import KeyHarvest.Locale
import KeyHarvest.Proofs.Dictionary.Reconciliation
import KeyHarvest.Proofs.Dictionary.Rendering
import KeyHarvest.Proofs.Files.Writing
import KeyHarvest.Proofs.Json.Reading

/-!
# Updating a locale twice

What has been saved is loaded again with its keys in order (`ofText_render`), provided its
numbers are integers and it is nested no deeper than the reader allows. Reconciled with the same
keys it is the same dictionary, so a second update finds the text of the file unchanged and writes
nothing (`update_update`).
-/

namespace KeyHarvest

open Json

namespace Dictionary

/-- What has been saved is the text of the file. -/
theorem readText_save {t t' : FileTree} {p : Path} {d : Dictionary}
    (h : save t p d = (t', none)) : t'.readText p = .ok d.render := by
  rw [save] at h
  split at h
  · cases h
  · next t'' _ =>
    cases hw : t''.write p d.render.toUTF8 with
    | error e =>
      rw [hw] at h
      cases h
    | ok t''' =>
      rw [hw] at h
      cases h
      exact FileTree.readText_write hw

private theorem distinct_ofText (text : String) :
    (Json.object (ofText text).dictionary).Distinct := by
  rw [ofText]
  split
  · next members h =>
    cases hp : parse text with
    | error e =>
      rw [Json.read, hp] at h
      cases h
    | ok v =>
      rw [Json.read, hp] at h
      cases h
      exact distinct_parse hp
  · rfl
  · rfl

/-- However a dictionary is loaded, its objects have distinct keys. -/
theorem distinct_load (t : FileTree) (p : Path) :
    (Json.object (load t p).dictionary).Distinct := by
  rw [load]
  split
  · split
    · exact distinct_ofText _
    · rfl
  · rfl

/-- A rendered dictionary is loaded with its keys in order. -/
theorem ofText_render {d : Dictionary} (hd : (Json.object d).Distinct)
    (hi : (Json.object d).Integral) (hn : (Json.object d).nesting < 128) :
    ofText d.render = ⟨sortMembers (sortValues d), .loaded⟩ := by
  rw [ofText, read_render hd hi hn, sortKeys]

/-- A file that can be read is loaded from its text. -/
theorem load_of_readText {t : FileTree} {p : Path} {text : String}
    (h : t.readText p = .ok text) : load t p = ofText text := by
  have hexists : t.pathExists p = true := by
    rw [FileTree.readText, bind_eq_ok_iff] at h
    obtain ⟨bytes, hbytes, -⟩ := h
    obtain ⟨names, hleads, -⟩ := FileTree.readBytes_eq_ok_iff.mp hbytes
    exact (FileTree.pathExists_iff t p).mpr ⟨names, _, hleads⟩
  rw [load, if_pos hexists, h]

end Dictionary

namespace LocaleTarget

variable (target : LocaleTarget)

/-- A locale whose file has the text of its dictionary is left as it is. -/
theorem update_of_readText {t : FileTree} {keys : Extracted}
    (h : t.readText target.path = .ok (target.reconciled t keys).dictionary.render)
    (dryRun : Bool) :
    ∃ outcome, target.update t keys dryRun = (t, .ok outcome) ∧ outcome.changed = false ∧
      outcome.written = false := by
  have hchanged : (target.outcome t keys dryRun).changed = false := by
    simp [outcome, h]
  have hwritten : (target.outcome t keys dryRun).written = false := by
    simp [outcome, h]
  refine ⟨target.outcome t keys dryRun, ?_, hchanged, hwritten⟩
  rw [update, hwritten, if_neg Bool.false_ne_true]

/-- An update that succeeds leaves the text of the dictionary in the file. -/
theorem readText_of_update {t t' : FileTree} {keys : Extracted} {outcome : LocaleOutcome}
    (h : target.update t keys false = (t', .ok outcome)) :
    t'.readText target.path = .ok (target.reconciled t keys).dictionary.render := by
  rw [update] at h
  cases hwritten : (target.outcome t keys false).written with
  | true =>
    rw [hwritten, if_pos rfl] at h
    split at h
    · next hsave =>
      cases h
      exact Dictionary.readText_save hsave
    · cases h
  | false =>
    rw [hwritten, if_neg Bool.false_ne_true] at h
    cases h
    cases htext : t.readText target.path with
    | error e => simp [outcome, htext] at hwritten
    | ok text =>
      have heq : text = (target.reconciled t keys).dictionary.render := by
        simpa [outcome, htext] using hwritten
      rw [heq]

/-- After an update that succeeds, a second one with the same keys changes and writes nothing. The
numbers in the dictionary before have to be integers of at most 64 bits, and the dictionary after
may be nested no deeper than the reader allows. -/
theorem update_update {t t' : FileTree} {keys : Extracted} {outcome : LocaleOutcome}
    (hi : (Json.object (Dictionary.load t target.path).dictionary).Integral)
    (h : target.update t keys false = (t', .ok outcome))
    (hn : (Json.object (target.reconciled t keys).dictionary).nesting < 128) (dryRun : Bool) :
    ∃ again, target.update t' keys dryRun = (t', .ok again) ∧ again.changed = false ∧
      again.written = false := by
  have htext := target.readText_of_update h
  have hd := Dictionary.distinct_load t target.path
  have hrender := Dictionary.ofText_render (Dictionary.distinct_reconcile keys hd target.options)
    (Dictionary.integral_reconcile keys hi target.options) hn
  have hload : (Dictionary.load t' target.path).dictionary =
      sortMembers (sortValues (target.reconciled t keys).dictionary) := by
    rw [Dictionary.load_of_readText htext, reconciled, hrender]
  apply target.update_of_readText
  rw [htext, reconciled, reconciled, hload]
  rw [reconciled, Dictionary.reconcile_sortMembers_reconcile keys hd]

/-- A flat file with a number and a whole dotted key, outside the working directory, is nested by
one update and left by the next one. -/
theorem update_update_menu :
    let t : FileTree := {
      entries := .ofList [(["home"], .directory), (["tmp"], .directory),
        (["tmp", "en.json"], .file "\x7b\"z\": -1, \"menu.open\": \"Ouvrir\"\x7d".toUTF8)],
      working := ["home"] }
    let target : LocaleTarget := ⟨⟨"/tmp"⟩, "", ".json", "en", { namespaced := true }⟩
    let keys : Extracted := .ofList [("menu.open", ""), ("z", "")]
    ∃ t' outcome, target.update t keys false = (t', .ok outcome) ∧ outcome.written = true ∧
      (target.reconciled t keys).dictionary =
        [("menu", .object [("open", .string "Ouvrir")]), ("z", .number (.int (-1)))] ∧
      ∃ again, target.update t' keys false = (t', .ok again) ∧ again.changed = false ∧
        again.written = false := by
  intro t target keys
  have hload : (Dictionary.load t target.path).dictionary =
      [("z", .number (.int (-1))), ("menu.open", .string "Ouvrir")] := by decide +kernel
  have hresult : (target.reconciled t keys).dictionary =
      [("menu", .object [("open", .string "Ouvrir")]), ("z", .number (.int (-1)))] := by
    decide +kernel
  have hok : (target.update t keys false).2.toOption.any (·.written) = true := by decide +kernel
  cases h : target.update t keys false with
  | mk t' result =>
    rw [h] at hok
    cases result with
    | error e => cases hok
    | ok outcome =>
      have hi : (Json.object (Dictionary.load t target.path).dictionary).Integral := by
        rw [hload]
        decide
      have hn : (Json.object (target.reconciled t keys).dictionary).nesting < 128 := by
        rw [hresult]
        decide
      exact ⟨t', outcome, rfl, hok, hresult, target.update_update hi h hn false⟩

end LocaleTarget

end KeyHarvest
