import KeyHarvest.Proofs.Files.Absent
import KeyHarvest.Proofs.Locale.Placing

/-!
# Malformed stores

A locale file that is there but holds no JSON object is as good as none. Nothing is loaded from it
(`dictionary_load_of_malformed`), so the keys are reconciled with the empty dictionary either way,
and the file that is written then does not depend on what was there (`update_malformed`).
-/

namespace KeyHarvest

namespace Dictionary

/-- Bytes that are not the text of an object in JSON. -/
def Malformed (content : ByteArray) : Prop :=
  ∀ text members, content = text.toUTF8 → Json.parse text ≠ .ok (.object members)

variable {t : FileTree} {p : Path}

/-- No dictionary is read from a text that is no object. -/
theorem dictionary_ofText_of_malformed {text : String} (h : Malformed text.toUTF8) :
    (ofText text).dictionary = [] := by
  rw [ofText, Json.read]
  cases hparse : Json.parse text with
  | error e => rfl
  | ok v =>
    cases v with
    | object members => exact absurd hparse (h text members rfl)
    | null | bool | number | string | array => rfl

/-- Nothing is loaded from a file that holds no object, whether or not it may be read. -/
theorem dictionary_load_of_malformed {names : Names} {content : ByteArray} (h : Malformed content)
    (hleads : t.LeadsToEntry p names (.file content)) : (load t p).dictionary = [] := by
  rw [load]
  split
  · split
    · next text htext =>
      rw [FileTree.readText_eq_ok_iff, FileTree.readBytes_eq_ok_iff] at htext
      obtain ⟨names', hfile, -⟩ := htext
      cases (hleads.unique hfile).2
      exact dictionary_ofText_of_malformed h
    · rfl
  · rfl

/-- Nothing is loaded where nothing is. -/
theorem load_of_free {names : Names} (h : t.resolve true p = .ok (.free names)) :
    load t p = ⟨[], .missing⟩ := by
  have hlookup : t.lookup p = .error .notFound := by
    rw [FileTree.lookup, FileTree.locate, h]
    rfl
  rw [load, FileTree.pathExists, hlookup]
  rfl

end Dictionary

/-- An outcome reports what a reconciliation has found. -/
structure LocaleOutcome.Reports (o : LocaleOutcome) (result : Reconciled) : Prop where
  stats : o.stats = result.stats
  shadowed : o.shadowed = result.shadowed

namespace LocaleTarget

variable {target : LocaleTarget} {t u : FileTree}

/-- The reconciliation of keys with the empty dictionary. -/
def afresh (target : LocaleTarget) (keys : Extracted) : Reconciled :=
  Dictionary.reconcile keys [] target.options

/-- Where nothing is loaded an outcome reports what the keys give by themselves. -/
theorem reports_outcome (hload : (Dictionary.load t target.path).dictionary = [])
    (keys : Extracted) (dryRun : Bool) :
    (target.outcome t keys dryRun).Reports (target.afresh keys) := by
  rw [afresh, ← hload]
  exact ⟨rfl, rfl⟩

/-- Where nothing is loaded and a file may be written under the names that the path leads to, the
dictionary that the keys give by themselves is there after the update. -/
theorem exists_update_afresh (hload : (Dictionary.load t target.path).dictionary = [])
    {place : FileTree.Place} (hplace : t.resolve true target.path = .ok place)
    (hne : place.names ≠ [])
    (hmake : t.makeDirectories (target.path.parent?.getD ⟨""⟩) = (t, none))
    (hwrite : ∀ content, t.write target.path content =
      .ok (t.insert place.names (.file content))) (keys : Extracted) :
    ∃ t' o, target.update t keys false = (t', .ok o) ∧ o.Reports (target.afresh keys) ∧
      ∀ q, t'.entry? q = FileTree.entry?
        (t.insert place.names (.file (target.afresh keys).dictionary.render.toUTF8)) q := by
  have hresult : target.reconciled t keys = target.afresh keys := by
    rw [reconciled, hload, afresh]
  have hreports := reports_outcome hload keys false
  cases hw : (target.outcome t keys false).written with
  | true =>
    refine ⟨_, _, update_eq_ok_iff.mpr ⟨rfl, ?_⟩, hreports, fun _ ↦ rfl⟩
    rw [if_pos hw, hresult]
    exact Dictionary.save_eq_none_iff.mpr ⟨t, hmake, hwrite _⟩
  | false =>
    -- What would be written is there already.
    refine ⟨t, _, update_eq_ok_iff.mpr ⟨rfl, ?_⟩, hreports, fun q ↦ ?_⟩
    · rw [if_neg (by simp [hw])]
    · rw [written_eq_changed, changed_eq_false_iff, FileTree.readBytes_eq_ok_iff, file,
        hresult] at hw
      obtain ⟨names, ⟨hfound, he⟩, -⟩ := hw
      rw [hplace] at hfound
      cases hfound
      rw [FileTree.entry?_insert t hne]
      split
      · next hq => rw [← hq]; exact he
      · rfl

/-- Where the path leads to a free name, an update that succeeds has written the file. -/
theorem exists_write_of_update {t' : FileTree} {o : LocaleOutcome} {keys : Extracted}
    {names : Names} (hfree : t.resolve true target.path = .ok (.free names))
    (hmake : t.makeDirectories (target.path.parent?.getD ⟨""⟩) = (t, none))
    (h : target.update t keys false = (t', .ok o)) :
    t.write target.path (target.file t keys).2 = .ok t' := by
  obtain ⟨-, h⟩ := update_eq_ok_iff.mp h
  split at h
  · obtain ⟨made, hmade, hwrite⟩ := Dictionary.save_eq_none_iff.mp h
    rw [hmake] at hmade
    cases hmade
    exact hwrite
  · next hw =>
    rw [written_eq_changed, Bool.not_eq_true, changed_eq_false_iff,
      FileTree.readBytes_eq_ok_iff] at hw
    obtain ⟨found, ⟨hfound, -⟩, -⟩ := hw
    rw [hfree] at hfound
    cases hfound

/-- A locale file that holds no object in JSON is as good as none. Take two trees that differ in
nothing but this file, which one of them lacks, the path to it leading through whatever links. There
the update succeeds if the file may be written. Then it succeeds in the other one as well, reports
the same, and leaves the same entries and thereby the same text: that of the dictionary that the
keys give by themselves. A dry run reports the same on both in any case. -/
theorem update_malformed (ht : t.Rooted) (hu : u.Rooted) {names : Names} {content : ByteArray}
    (h : t.Lacks u names content) (hp : u.locate true target.path = .ok names)
    (hm : Dictionary.Malformed content) (keys : Extracted) :
    let text := (target.afresh keys).dictionary.render
    ((∃ t' o, target.update t keys false = (t', .ok o)) ↔ t.refusal? .write names = none) ∧
    (∀ t' o, target.update t keys false = (t', .ok o) →
      ∃ u' o', target.update u keys false = (u', .ok o') ∧
        o.Reports (target.afresh keys) ∧ o'.Reports (target.afresh keys) ∧
        t'.readText target.path = .ok text ∧ u'.readText target.path = .ok text ∧
        ∀ q, t'.entry? q = u'.entry? q) ∧
    ∃ o o', target.update t keys true = (t, .ok o) ∧ target.update u keys true = (u, .ok o') ∧
      o.Reports (target.afresh keys) ∧ o'.Reports (target.afresh keys) := by
  intro text
  obtain ⟨hfound, hfree⟩ := h.resolve hp
  have hloadt : (Dictionary.load t target.path).dictionary = [] := by
    rw [Dictionary.load_of_free hfree]
  have hloadu : (Dictionary.load u target.path).dictionary = [] :=
    Dictionary.dictionary_load_of_malformed hm ⟨hfound, h.present⟩
  have hmake := (h.writes hp ht hu content).1.1
  have updated (haccess : t.refusal? .write names = none) :=
    exists_update_afresh hloadt hfree h.ne_nil hmake (fun content' ↦ by
      rw [(h.writes hp ht hu content').1.2, FileTree.checkAccess_of_none haccess, ok_bind]
      rfl) keys
  have permitted {t' : FileTree} {o : LocaleOutcome}
      (hupdate : target.update t keys false = (t', .ok o)) : t.refusal? .write names = none := by
    have hwrite := exists_write_of_update hfree hmake hupdate
    rw [(h.writes hp ht hu _).1.2, bind_eq_ok_iff] at hwrite
    obtain ⟨⟨⟩, haccess, -⟩ := hwrite
    exact FileTree.checkAccess_eq_ok_iff.mp haccess
  refine ⟨⟨fun ⟨t', o, hupdate⟩ ↦ permitted hupdate, fun haccess ↦ ?_⟩,
    fun t' o htupdate ↦ ?_, ?_⟩
  · obtain ⟨t', o, hupdate, -⟩ := updated haccess
    exact ⟨t', o, hupdate⟩
  · have haccess := permitted htupdate
    have haccess' : u.refusal? .write names = none := (h.seenAlike.refusal? ..).trans haccess
    obtain ⟨t'', o'', hupdate, hto, htentry⟩ := updated haccess
    rw [htupdate] at hupdate
    cases hupdate
    obtain ⟨u', o', huupdate, huo, huentry⟩ := exists_update_afresh hloadu hfound h.ne_nil
      (h.writes hp ht hu content).2.1 (fun content' ↦ by
        rw [(h.writes hp ht hu content').2.2, FileTree.checkAccess_of_none haccess', ok_bind]
        rfl) keys
    have httext := target.readText_of_update htupdate
    have hutext := target.readText_of_update huupdate
    rw [reconciled, hloadt] at httext
    rw [reconciled, hloadu] at hutext
    refine ⟨u', o', huupdate, hto, huo, httext, hutext, fun q ↦ ?_⟩
    rw [htentry, huentry]
    exact h.entry?_insert _ q
  · exact ⟨_, _, target.update_dryRun t keys, target.update_dryRun u keys,
      reports_outcome hloadt keys true, reports_outcome hloadu keys true⟩

/-- A file that breaks off, outside the working directory, which the path reaches through a link. -/
theorem update_malformed_broken :
    let t : FileTree := {
      entries := .ofList [(["home"], .directory), (["home", "lang"], .link "/srv/i18n"),
        (["srv"], .directory), (["srv", "i18n"], .directory)],
      working := ["home"] }
    let content := "\x7b \"a\": ".toUTF8
    let names := ["srv", "i18n", "en.json"]
    let u := t.insert names (.file content)
    let target : LocaleTarget := ⟨⟨"lang"⟩, "", ".json", "en", {}⟩
    let keys : Extracted := .ofList [("b", "")]
    t.Rooted ∧ u.Rooted ∧ t.Lacks u names content ∧ u.locate true target.path = .ok names ∧
      Dictionary.Malformed content ∧
      ∃ t' u' o o', target.update t keys false = (t', .ok o) ∧
        target.update u keys false = (u', .ok o') ∧ o.stats = o'.stats ∧
        t'.readText target.path = u'.readText target.path := by
  intro t content names u target keys
  have ht : t.Rooted := by decide +kernel
  have hu : u.Rooted := by decide +kernel
  have hlacks : t.Lacks u names content := FileTree.lacks_insert ht (by decide +kernel) content
  have hpath : u.locate true target.path = .ok names := by decide +kernel
  have hmalformed : Dictionary.Malformed content := by
    intro text members htext
    rw [← String.toByteArray_inj.mp htext]
    exact nofun
  obtain ⟨hsucceeds, hsame, -⟩ := update_malformed ht hu hlacks hpath hmalformed keys
  obtain ⟨t', o, hupdate⟩ := hsucceeds.mpr rfl
  obtain ⟨u', o', hupdate', ho, ho', htext, hutext, -⟩ := hsame t' o hupdate
  exact ⟨ht, hu, hlacks, hpath, hmalformed, t', u', o, o', hupdate, hupdate',
    ho.stats.trans ho'.stats.symm, htext.trans hutext.symm⟩

end LocaleTarget

end KeyHarvest
