import KeyHarvest.Command.Run
import KeyHarvest.Proofs.Locale.Placing

/-!
# Updating locales one after the other

Locales whose paths are plain and have names of their own (`Separate`) are updated as if each were
the only one: their files can be put in the tree, each apart from the others (`Updatable`), the
outcomes are those of the tree before, and exactly their files have been put there
(`updateLocales_eq_ok`, `exists_updateLocales`). If one of them cannot be updated, those before it
have been (`updateLocales_eq_error`).
-/

namespace KeyHarvest.Command

/-- The paths of locales are plain and lead to names of their own. -/
structure Separate (t : FileTree) (targets : List LocaleTarget) : Prop where
  plain : ∀ target ∈ targets, t.Plain target.path
  distinct : targets.Pairwise fun a b ↦ t.spelled a.path ≠ t.spelled b.path

/-- The files of locales can be put in a tree, none in the place or in the way of another, and may
be written where they have to be. -/
structure Updatable (t : FileTree) (keys : Extracted) (targets : List LocaleTarget) : Prop where
  placeable : ∀ target ∈ targets, t.Placeable target.path
  permitted : ∀ target ∈ targets, target.Permitted t keys
  apart : targets.Pairwise fun a b ↦ Apart (t.spelled a.path) (t.spelled b.path)

variable {keys : Extracted} {t u t' : FileTree} {target : LocaleTarget}
  {targets rest : List LocaleTarget} {outcomes : List LocaleOutcome}

private theorem separate_iff (t : FileTree) (targets : List LocaleTarget) :
    ((∀ target ∈ targets, t.Plain target.path) ∧
      targets.Pairwise fun a b ↦ t.spelled a.path ≠ t.spelled b.path) ↔ Separate t targets :=
  ⟨fun h ↦ ⟨h.1, h.2⟩, fun h ↦ ⟨h.plain, h.distinct⟩⟩

instance (t : FileTree) (targets : List LocaleTarget) : Decidable (Separate t targets) :=
  decidable_of_iff _ (separate_iff t targets)

/-- Locales are separate if the first one is from the others and these are. -/
theorem Separate.cons_iff : Separate t (target :: rest) ↔ t.Plain target.path ∧
    (∀ other ∈ rest, t.spelled target.path ≠ t.spelled other.path) ∧ Separate t rest := by
  constructor
  · rintro ⟨hplain, hdistinct⟩
    rw [List.forall_mem_cons] at hplain
    rw [List.pairwise_cons] at hdistinct
    exact ⟨hplain.1, hdistinct.1, hplain.2, hdistinct.2⟩
  · rintro ⟨hplain, hdistinct, hrest⟩
    exact ⟨List.forall_mem_cons.mpr ⟨hplain, hrest.plain⟩,
      List.pairwise_cons.mpr ⟨hdistinct, hrest.distinct⟩⟩

/-- Locales can be updated if the first one can, apart from the others, and these can. -/
theorem Updatable.cons_iff : Updatable t keys (target :: rest) ↔
    (t.Placeable target.path ∧ target.Permitted t keys) ∧
      (∀ other ∈ rest, Apart (t.spelled target.path) (t.spelled other.path)) ∧
        Updatable t keys rest := by
  constructor
  · rintro ⟨hplace, hpermitted, hapart⟩
    rw [List.forall_mem_cons] at hplace hpermitted
    rw [List.pairwise_cons] at hapart
    exact ⟨⟨hplace.1, hpermitted.1⟩, hapart.1, hplace.2, hpermitted.2, hapart.2⟩
  · rintro ⟨⟨hplace, hpermitted⟩, hapart, hrest⟩
    exact ⟨List.forall_mem_cons.mpr ⟨hplace, hrest.placeable⟩,
      List.forall_mem_cons.mpr ⟨hpermitted, hrest.permitted⟩,
      List.pairwise_cons.mpr ⟨hapart, hrest.apart⟩⟩

/-! ### One locale put before the others -/

section Frame

variable {content : ByteArray} (hput : t.Placed u [(t.spelled target.path, content)])
include hput

/-- Locales are separate after a file is put if they were before. -/
theorem Separate.of_placed (hs : Separate t rest) : Separate u rest := by
  refine ⟨fun other hother ↦ hput.plain (hs.plain other hother), hs.distinct.imp fun hne ↦ ?_⟩
  rwa [hput.seenAlike.spelled, hput.seenAlike.spelled]

/-- The path of one locale leads to the same after the file of another one is put. -/
theorem leadsAlike_of_placed (hr : t.Rooted) {other : LocaleTarget} (hp : t.Plain other.path)
    (hends : FileTree.endsAsDirectory other.path = false)
    (hapart : Apart (t.spelled target.path) (t.spelled other.path)) :
    t.LeadsAlike u other.path :=
  ⟨hput.seenAlike, FileTree.leadsToEntry_congr hr hput.rooted hput.seenAlike hp (hput.plain hp)
    hends (hput.entry?_of_apart hapart).symm⟩

/-- Locales can be updated after the file of another one is put if they could be before. -/
theorem Updatable.iff_of_placed (hr : t.Rooted) (hs : Separate t rest)
    (hp : t.Placeable target.path)
    (hapart : ∀ other ∈ rest, Apart (t.spelled target.path) (t.spelled other.path)) :
    Updatable u keys rest ↔ Updatable t keys rest := by
  have hplace (other : LocaleTarget) (hother : other ∈ rest) :=
    hput.placeable_iff hr hp (hapart other hother)
  have halike (other : LocaleTarget) (hother : other ∈ rest) (h : t.Placeable other.path) :=
    leadsAlike_of_placed hput hr (hs.plain other hother) h.ends (hapart other hother)
  have hspelled := hput.seenAlike.spelled
  constructor
  · rintro ⟨hroom, hpermitted, hrest⟩
    simp only [hspelled] at hrest
    have hroom' (other : LocaleTarget) (hother : other ∈ rest) :=
      (hplace other hother).mp (hroom other hother)
    exact ⟨hroom', fun other hother ↦ (LocaleTarget.permitted_congr
      (halike other hother (hroom' other hother))).mpr (hpermitted other hother), hrest⟩
  · rintro ⟨hroom, hpermitted, hrest⟩
    refine ⟨fun other hother ↦ (hplace other hother).mpr (hroom other hother),
      fun other hother ↦ (LocaleTarget.permitted_congr
        (halike other hother (hroom other hother))).mp (hpermitted other hother), ?_⟩
    simpa only [hspelled] using hrest

end Frame

/-! ### All locales -/

section Step

-- Checking the equation must not run the update of a locale.
attribute [local irreducible] LocaleTarget.update

/-- The first locale is updated, and then the others. -/
theorem updateLocales_cons (keys : Extracted) (dryRun : Bool) (t : FileTree) (target : LocaleTarget)
    (rest : List LocaleTarget) : updateLocales keys dryRun t (target :: rest) =
      match target.update t keys dryRun with
      | (t, .error e) => (t, .error (.locale target.locale e))
      | (t, .ok outcome) =>
        match updateLocales keys dryRun t rest with
        | (t, .ok outcomes) => (t, .ok (outcome :: outcomes))
        | (t, .error e) => (t, .error e) := rfl

end Step

/-- Locales are updated when the first one is, and then the others. -/
theorem updateLocales_cons_eq_ok_iff {dryRun : Bool} :
    updateLocales keys dryRun t (target :: rest) = (t', .ok outcomes) ↔
      ∃ u outcome others, target.update t keys dryRun = (u, .ok outcome) ∧
        updateLocales keys dryRun u rest = (t', .ok others) ∧ outcomes = outcome :: others := by
  rw [updateLocales_cons]
  split
  · next h => simp [h]
  · next u outcome h =>
    split
    · next hrest => simp [h, hrest, and_comm, eq_comm]
    · next hrest => simp [h, hrest]

/-- Updates that succeed, one after the other, do what each would do alone. -/
theorem updateLocales_eq_ok (hr : t.Rooted) (hs : Separate t targets)
    (h : updateLocales keys false t targets = (t', .ok outcomes)) :
    Updatable t keys targets ∧ outcomes = targets.map (·.outcome t keys false) ∧
      t.Placed t' (targets.map (·.file t keys)) := by
  induction targets generalizing t outcomes with
  | nil =>
    cases h
    exact ⟨⟨by simp, by simp, .nil⟩, rfl, (FileTree.Placed.nil_iff hr).mpr rfl⟩
  | cons target rest ih =>
    obtain ⟨hp, hne, hsrest⟩ := Separate.cons_iff.mp hs
    obtain ⟨u, outcome, others, hupdate, hrest, rfl⟩ := updateLocales_cons_eq_ok_iff.mp h
    obtain ⟨hplace, hpermitted, rfl, hput⟩ := LocaleTarget.placed_of_update hr hp hupdate
    obtain ⟨hu, rfl, hputs⟩ := ih hput.rooted (hsrest.of_placed hput) hrest
    have hapart (other : LocaleTarget) (hother : other ∈ rest) :
        Apart (t.spelled target.path) (t.spelled other.path) :=
      hput.apart (hu.placeable other hother) (hne other hother)
    have ht := (Updatable.iff_of_placed hput hr hsrest hplace hapart).mp hu
    have halike (other : LocaleTarget) (hother : other ∈ rest) :=
      leadsAlike_of_placed hput hr (hsrest.plain other hother) (ht.placeable other hother).ends
        (hapart other hother)
    have hfiles : rest.map (·.file u keys) = rest.map (·.file t keys) :=
      List.map_congr_left fun other hother ↦ (LocaleTarget.file_congr (halike other hother)).symm
    refine ⟨Updatable.cons_iff.mpr ⟨⟨hplace, hpermitted⟩, hapart, ht⟩, ?_, ?_⟩
    · rw [List.map_cons, List.cons.injEq]
      exact ⟨rfl, List.map_congr_left fun other hother ↦
        (LocaleTarget.outcome_congr (halike other hother) false).symm⟩
    · rw [hfiles] at hputs
      refine hput.trans hputs fun file hfile ↦ ?_
      obtain ⟨other, hother, rfl⟩ := List.mem_map.mp hfile
      exact hapart other hother

/-- Locales whose files can be put in the tree are updated. -/
theorem exists_updateLocales (hr : t.Rooted) (hs : Separate t targets)
    (h : Updatable t keys targets) :
    ∃ t' outcomes, updateLocales keys false t targets = (t', .ok outcomes) := by
  induction targets generalizing t with
  | nil => exact ⟨t, [], rfl⟩
  | cons target rest ih =>
    obtain ⟨hp, -, hsrest⟩ := Separate.cons_iff.mp hs
    obtain ⟨⟨hplace, hpermitted⟩, hapart, ht⟩ := Updatable.cons_iff.mp h
    obtain ⟨u, hupdate⟩ := LocaleTarget.exists_update_of_placeable hr hp hplace hpermitted
    have hput := (LocaleTarget.placed_of_update hr hp hupdate).2.2.2
    obtain ⟨t', others, hrest⟩ := ih hput.rooted (hsrest.of_placed hput)
      ((Updatable.iff_of_placed hput hr hsrest hplace hapart).mpr ht)
    exact ⟨t', _, updateLocales_cons_eq_ok_iff.mpr ⟨u, _, others, hupdate, hrest, rfl⟩⟩

/-- The files of locales that can be updated have names of their own. -/
theorem Updatable.nodup_names (hu : Updatable t keys targets) :
    ((targets.map (·.file t keys)).map Prod.fst).Nodup := by
  rw [List.map_map]
  exact List.pairwise_map.mpr (hu.apart.imp fun h ↦ h.ne)

section Files

variable (hput : t.Placed t' (targets.map (·.file t keys))) (hu : Updatable t keys targets)
include hput hu

/-- The file of a locale after all updates is the one that its own update leaves. -/
theorem entry?_of_mem (htarget : target ∈ targets) :
    t'.entry? (t.spelled target.path) = some (.file (target.file t keys).2) := by
  have hvalue : KeyMap.firstValue (targets.map (·.file t keys)) (t.spelled target.path) =
      some (target.file t keys).2 :=
    (KeyMap.firstValue_eq_some_iff hu.nodup_names _ _).mpr
      (List.mem_map.mpr ⟨target, htarget, rfl⟩)
  rw [hput.entry?, FileTree.entryAfter, hvalue]

/-- The file of a locale is read after all updates as its own update leaves it. -/
theorem readBytes_of_mem (hr : t.Rooted) (hs : Separate t targets) (htarget : target ∈ targets) :
    t'.readBytes target.path = .ok (target.file t keys).2 := by
  have hp := hs.plain target htarget
  have hplace := hu.placeable target htarget
  have hleads := (hplace.leadsToEntry_iff hput.seenAlike hput.rooted (hput.plain hp) _ _).mpr
    ⟨rfl, entry?_of_mem hput hu htarget⟩
  refine FileTree.readBytes_eq_ok_iff.mpr ⟨_, hleads, ?_⟩
  rw [hput.seenAlike.refusal?]
  exact (hu.permitted target htarget).readable hr hp hplace

/-- All other files stay as they were, and there are no new ones. -/
theorem file_iff_of_forall_ne (hr : t.Rooted) {names : Names}
    (hne : ∀ target ∈ targets, t.spelled target.path ≠ names) (content : ByteArray) :
    t'.entry? names = some (.file content) ↔ t.entry? names = some (.file content) := by
  have hvalue : KeyMap.firstValue (targets.map (·.file t keys)) names = none := by
    rw [KeyMap.firstValue_eq_none_iff, List.map_map]
    intro hmem
    obtain ⟨target, htarget, heq⟩ := List.mem_map.mp hmem
    exact hne target htarget heq
  simp only [hput.entry?, FileTree.entryAfter, hvalue]
  split
  · next hdir =>
    -- What has become a directory was one before or was free.
    obtain ⟨file, hfile, hstart⟩ := hdir
    obtain ⟨target, htarget, rfl⟩ := List.mem_map.mp hfile
    have hbefore :=
      (hu.placeable target htarget).makeable_above hr hstart (Ne.symm (hne target htarget))
    simpa using hbefore.ne_file
  · rfl

end Files

/-- Updates that fail have updated the locales before one that cannot be. -/
theorem updateLocales_eq_error {dryRun : Bool} {e : ExtractError}
    (h : updateLocales keys dryRun t targets = (t', .error e)) :
    ∃ done target rest u outcomes cause, targets = done ++ target :: rest ∧
      updateLocales keys dryRun t done = (u, .ok outcomes) ∧
      target.update u keys dryRun = (t', .error cause) ∧ e = .locale target.locale cause := by
  induction targets generalizing t with
  | nil => cases h
  | cons target rest ih =>
    rw [updateLocales_cons] at h
    split at h
    · next hupdate =>
      cases h
      exact ⟨[], target, rest, t, [], _, rfl, rfl, hupdate, rfl⟩
    · next u outcome hupdate =>
      split at h
      · cases h
      · next hrest =>
        cases h
        obtain ⟨done, other, rest', v, outcomes, cause, rfl, hdone, hother, rfl⟩ := ih hrest
        exact ⟨target :: done, other, rest', v, outcome :: outcomes, cause, rfl,
          updateLocales_cons_eq_ok_iff.mpr ⟨u, outcome, outcomes, hupdate, hdone, rfl⟩, hother, rfl⟩

end KeyHarvest.Command
