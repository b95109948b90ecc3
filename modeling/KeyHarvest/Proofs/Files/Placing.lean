import KeyHarvest.Proofs.Apart
import KeyHarvest.Proofs.Files.Directories

/-!
# Files put at plain paths

There is room for a file at a plain path if the way to it is open and nothing but a file stands in
its place (`Placeable`): then, if it may be written, the directories above it are made and the file
is written (`exists_write_of_placeable`), and only then (`placed_of_write`). Afterwards every name
has what `entryAfter` says.

What one file changes does not matter to a path apart from its own: neither is put in the way or in
the place of the other (`Placed.placeable_iff`, `Placed.entry?_of_apart`). Paths at which files were
put one after the other are apart (`Placed.apart`).
-/

namespace KeyHarvest

namespace FileTree

open KeyHarvest.Path

/-- There is room for a file at a path: the way is open, and at most a file is in its place. -/
structure Placeable (t : FileTree) (p : Path) : Prop where
  check : checkPath p = .ok ()
  ends : endsAsDirectory p = false
  fits : Fits p.names
  way : t.IsOpen (t.origin p) p.names.dropLast
  place : t.entry? (t.spelled p) = none ∨ ∃ content, t.entry? (t.spelled p) = some (.file content)

/-- What stands under names once files have been put in a tree, each with the directories above
it. -/
def entryAfter (t : FileTree) (files : List (Names × ByteArray)) (names : Names) : Option Entry :=
  match KeyMap.firstValue files names with
  | some content => some (.file content)
  | none =>
    if ∃ file ∈ files, names <+: file.1 then some .directory else t.entry? names

/-- Files have been put in a tree and nothing else has changed. -/
structure Placed (t t' : FileTree) (files : List (Names × ByteArray)) : Prop where
  rooted : t'.Rooted
  seenAlike : t.SeenAlike t'
  entry? : ∀ names, t'.entry? names = t.entryAfter files names

/-- What stands under names once one file has been put. -/
theorem entryAfter_single (t : FileTree) (names : Names) (content : ByteArray) (q : Names) :
    t.entryAfter [(names, content)] q =
      if names = q then some (.file content)
      else if q <+: names then some .directory else t.entry? q := by
  rw [entryAfter, KeyMap.firstValue_cons]
  by_cases h : names = q
  · rw [if_pos h, if_pos h]
  · rw [if_neg h, if_neg h]
    simp

/-- Where no files are put nothing changes. -/
theorem Placed.nil_iff {t u : FileTree} (hr : t.Rooted) : t.Placed u [] ↔ u = t := by
  constructor
  · intro h
    refine (hr.ext h.rooted h.seenAlike fun names ↦ ?_).symm
    simpa [entryAfter, KeyMap.firstValue] using (h.entry? names).symm
  · rintro rfl
    exact ⟨hr, .refl _, fun names ↦ by simp [entryAfter, KeyMap.firstValue]⟩

/-- The trees in which the same files have been put are the same. -/
theorem Placed.unique {t u v : FileTree} {files files' : List (Names × ByteArray)}
    (hu : t.Placed u files) (hv : t.Placed v files') (hperm : files.Perm files')
    (hd : (files.map Prod.fst).Nodup) : u = v := by
  apply hu.rooted.ext hv.rooted
  · exact ⟨hv.seenAlike.working.trans hu.seenAlike.working.symm,
      hv.seenAlike.refused.trans hu.seenAlike.refused.symm⟩
  intro names
  rw [hu.entry?, hv.entry?, entryAfter, entryAfter, KeyMap.firstValue_perm hperm hd]
  simp only [hperm.mem_iff]

/-! ### Ends of paths -/

/-- A path that does not end as that of a directory ends in a name. -/
theorem exists_pieces_of_ends {p : Path} (h : endsAsDirectory p = false) :
    ∃ above name, p.pieces = above ++ [name] ∧ isIdle name = false := by
  rw [endsAsDirectory] at h
  split at h
  · next name hlast =>
    obtain ⟨above, hpieces⟩ := List.getLast?_eq_some_iff.mp hlast
    simp only [Bool.or_eq_false_iff, beq_eq_false_iff_ne] at h
    exact ⟨above, name, hpieces, (isIdle_eq_false_iff name).mpr h.1⟩
  · cases h

/-- A path that ends in a name does not end as that of a directory. -/
theorem endsAsDirectory_of_pieces {p : Path} {above : List String} {name : String}
    (hpieces : p.pieces = above ++ [name]) (hn : isIdle name = false) (hup : name ≠ "..") :
    endsAsDirectory p = false := by
  obtain ⟨hempty, hdot⟩ := (isIdle_eq_false_iff name).mp hn
  rw [endsAsDirectory, hpieces, List.getLast?_concat]
  simp [hempty, hdot, hup]

/-- A plain path that leads to a file does not end as that of a directory. -/
theorem endsAsDirectory_of_leadsToEntry {t : FileTree} {p : Path} {names : Names}
    {content : ByteArray} (hp : t.Plain p) (h : t.LeadsToEntry p names (.file content)) :
    endsAsDirectory p = false := by
  obtain ⟨above, name, hpieces⟩ := p.exists_pieces_eq_append
  obtain ⟨hup, hname⟩ := hp.not_up_above hpieces
  cases hi : isIdle name with
  | false => exact endsAsDirectory_of_pieces hpieces hi hname
  | true =>
    have hnames : p.names = namesIn above := by
      rw [Path.names, hpieces, namesIn_append, namesIn_cons_of_idle hi]
      exact List.append_nil _
    have hlink := hp.unlinked
    rw [hnames] at hlink
    obtain ⟨hplace, he⟩ := h
    rw [resolve_eq, bind_eq_ok_iff, hpieces] at hplace
    obtain ⟨⟨⟩, -, hplace⟩ := hplace
    obtain ⟨found, hfound, hdir⟩ := exists_directory_of_idle hup hlink hi hplace
    cases hfound
    rw [hdir] at he
    cases he

/-- What a plain path leads to in rooted trees seen alike depends on nothing but the entry of its
names. -/
theorem leadsToEntry_congr {t u : FileTree} {p : Path} (ht : t.Rooted) (hu : u.Rooted)
    (hseen : t.SeenAlike u) (hpt : t.Plain p) (hpu : u.Plain p) (hends : endsAsDirectory p = false)
    (h : t.entry? (t.spelled p) = u.entry? (t.spelled p)) (names : Names) (e : Entry) :
    t.LeadsToEntry p names e ↔ u.LeadsToEntry p names e := by
  obtain ⟨above, name, hpieces, hn⟩ := exists_pieces_of_ends hends
  rw [leadsToEntry_iff ht hpt hpieces hn, leadsToEntry_iff hu hpu hpieces hn, hseen.spelled,
    hseen.origin, h]
  simp only [Passes, hseen.refusal?]

/-- There is room for a file where a plain path leads to one, and it has been put there. -/
theorem placed_of_leadsToEntry {t : FileTree} {p : Path} {names : Names} {content : ByteArray}
    (hr : t.Rooted) (hp : t.Plain p) (h : t.LeadsToEntry p names (.file content)) :
    t.Placeable p ∧ t.Placed t [(t.spelled p, content)] := by
  have hends := endsAsDirectory_of_leadsToEntry hp h
  obtain ⟨above, name, hpieces, hn⟩ := exists_pieces_of_ends hends
  obtain ⟨-, hcheck, hfit, hd, he⟩ := (leadsToEntry_iff_directories hp hpieces hn _ _).mp h
  refine ⟨⟨hcheck, hends, hfit, fun q hq ↦ ?_, .inr ⟨content, he⟩⟩, hr, .refl t, fun q ↦ ?_⟩
  · rw [dropLast_names hpieces hn] at hq
    exact (hd q hq).passable
  · rw [entryAfter_single]
    split
    · next heq => rw [← heq, he]
    split
    · next hne hq => exact hr.entry?_above he hq (Ne.symm hne)
    · rfl

/-- Where a rooted tree is seen as one in which there is room for a file at a plain path, this leads
to the entry of its names. -/
theorem Placeable.leadsToEntry_iff {t u : FileTree} {p : Path} (h : t.Placeable p)
    (hseen : t.SeenAlike u) (hu : u.Rooted) (hp : u.Plain p) (names : Names) (e : Entry) :
    u.LeadsToEntry p names e ↔ names = t.spelled p ∧ u.entry? (t.spelled p) = some e := by
  obtain ⟨above, name, hpieces, hn⟩ := exists_pieces_of_ends h.ends
  have hpasses : u.Passes (t.origin p) p.names := by
    intro q hq hne
    rw [names_of_pieces hpieces hn] at hq hne
    have hway := h.way q
    rw [dropLast_names hpieces hn] at hway
    rw [hseen.refusal?]
    exact (hway ((List.prefix_concat_iff.mp hq).resolve_left hne)).2
  rw [FileTree.leadsToEntry_iff hu hp hpieces hn, hseen.spelled, hseen.origin]
  simp only [h.check, h.fits, hpasses, true_and]

section Step

variable {t u : FileTree} {p q : Path} {content : ByteArray}

/-! ### Writing -/

/-- What a plain path that ends in a name needs for a file to be written. -/
theorem write_eq_ok_iff {above : List String} {name : String} (hp : t.Plain p)
    (hpieces : p.pieces = above ++ [name]) (hn : isIdle name = false) :
    t.write p content = .ok u ↔ checkPath p = .ok () ∧ Fits p.names ∧
      t.Directories (t.origin p) (namesIn above) ∧
      (t.entry? (t.spelled p) = none ∨ ∃ old, t.entry? (t.spelled p) = some (.file old)) ∧
      t.refusal? .write (t.spelled p) = none ∧ u = t.insert (t.spelled p) (.file content) := by
  have hends := endsAsDirectory_of_pieces hpieces hn (hp.not_up_above hpieces).2
  have hnames {place : Place} (h : place =
      if (t.entry? (t.spelled p)).isSome then .found (t.spelled p) else .free (t.spelled p)) :
      place.names = t.spelled p := by
    rw [h]
    split <;> rfl
  constructor
  · intro h
    obtain ⟨place, hplace, hw, haccess, rfl⟩ := write_eq_ok h
    obtain ⟨hcheck, hfit, hd, hplace⟩ := (resolve_eq_ok_iff hp hpieces hn _).mp hplace
    rw [hnames hplace] at hw haccess ⊢
    exact ⟨hcheck, hfit, hd, hw.2, haccess, rfl⟩
  · rintro ⟨hcheck, hfit, hd, hplace, haccess, rfl⟩
    have hresolve := (resolve_eq_ok_iff hp hpieces hn _).mpr ⟨hcheck, hfit, hd, rfl⟩
    rw [write, hcheck, ok_bind, hends, if_neg Bool.false_ne_true, hresolve, ok_bind]
    simp only [hnames rfl, checkAccess_of_none haccess, ok_bind]
    rcases hplace with hplace | ⟨old, hplace⟩ <;> rw [hplace]

/-- What making the directories above a path has found and changed. -/
theorem directoriesMade_above {made : FileTree} {above : List String} {name : String}
    (hr : t.Rooted) (hp : t.Plain p) (hcheck : checkPath p = .ok ())
    (hpieces : p.pieces = above ++ [name]) (hn : isIdle name = false)
    (hmake : t.makeDirectories (p.parent?.getD ⟨""⟩) = (made, none)) :
    made.Rooted ∧ t.DirectoriesMade made (t.origin p) (namesIn above) := by
  obtain ⟨q, hq, habove, horigin, hqplain, hqcheck⟩ := hp.exists_parent? hcheck hpieces hn
  rw [hq, Option.getD_some] at hmake
  have hmade := directoriesMade_of_eq_none hr hqplain habove.trim hqcheck hmake
  rw [horigin, habove.names] at hmade
  refine ⟨?_, hmade⟩
  have hrooted := rooted_makeDirectoriesFrom hr q (q.pieces.length + 1)
  rw [makeDirectories] at hmake
  rwa [hmake] at hrooted

/-- There was room for a file that is written behind directories just made, and it has been put. -/
theorem placed_of_write {made : FileTree} (hr : t.Rooted) (hp : t.Plain p)
    (hmake : t.makeDirectories (p.parent?.getD ⟨""⟩) = (made, none))
    (hwrite : made.write p content = .ok u) :
    t.Placeable p ∧ t.refusal? .write (t.spelled p) = none ∧
      t.Placed u [(t.spelled p, content)] := by
  have hends := endsAsDirectory_of_write hwrite
  obtain ⟨above, name, hpieces, hn⟩ := exists_pieces_of_ends hends
  obtain ⟨_, hplace, -⟩ := write_eq_ok hwrite
  have hcheck := checkPath_of_resolve hplace
  obtain ⟨hrooted, hmade⟩ := directoriesMade_above hr hp hcheck hpieces hn hmake
  obtain ⟨-, hfit, hd, hplace, haccess, rfl⟩ :=
    (write_eq_ok_iff (hp.of_directoriesMade hmade) hpieces hn).mp hwrite
  have hlast := dropLast_names hpieces hn
  have hspelled := spelled_of_pieces t hpieces hn
  have hne : t.spelled p ≠ [] := by simp [hspelled]
  rw [hmade.seenAlike.origin] at hd
  rw [hmade.seenAlike.spelled] at hplace haccess ⊢
  rw [hmade.seenAlike.refusal?] at haccess
  have hnot : ¬ t.spelled p <+: t.origin p ++ namesIn above := by
    rw [spelled, List.prefix_append_right_inj]
    exact not_prefix_of_pieces hpieces hn
  refine ⟨⟨hcheck, hends, hfit, fun q hq ↦ ?_, ?_⟩, haccess, ?_,
    hmade.seenAlike.trans (seenAlike_insert _ _ _), fun q ↦ ?_⟩
  · rw [hlast] at hq
    have henter : t.refusal? .enter (t.origin p ++ q) = none := by
      rw [← hmade.seenAlike.refusal?]
      exact (hd q hq).2
    by_cases heq : q = namesIn above
    · exact ⟨heq ▸ hmade.last, henter⟩
    · exact hmade.way q hq heq
  · rwa [hmade.entry?, if_neg hnot] at hplace
  · refine hrooted.insert hne ?_ _ fun old hold ↦ ?_
    · rw [hspelled, List.dropLast_concat]
      exact (hd _ List.prefix_rfl).1
    · rintro rfl
      rcases hplace with hplace | ⟨old, hplace⟩ <;> rw [hold] at hplace <;> cases hplace
  · rw [entry?_insert made hne, entryAfter_single, hmade.entry?]
    by_cases heq : t.spelled p = q
    · rw [if_pos heq, if_pos heq]
    · have hcases : q <+: t.spelled p ↔ q <+: t.origin p ++ namesIn above := by
        rw [hspelled, List.prefix_concat_iff]
        exact or_iff_right fun h ↦ heq (hspelled.trans h.symm)
      rw [if_neg heq, if_neg heq]
      simp only [hcases]

/-- Where there is room for a file that may be written, the directories above it can be made and it
can be written. -/
theorem exists_write_of_placeable (hr : t.Rooted) (hp : t.Plain p) (h : t.Placeable p)
    (haccess : t.refusal? .write (t.spelled p) = none) (content : ByteArray) :
    ∃ made u, t.makeDirectories (p.parent?.getD ⟨""⟩) = (made, none) ∧
      made.write p content = .ok u := by
  obtain ⟨above, name, hpieces, hn⟩ := exists_pieces_of_ends h.ends
  obtain ⟨q, hq, habove, horigin, hqplain, hqcheck⟩ := hp.exists_parent? h.check hpieces hn
  have hstart : q.names <+: p.names := habove.names ▸ namesIn_prefix_names hpieces hn
  have hway := h.way
  rw [dropLast_names hpieces hn] at hway
  obtain ⟨made, hmake⟩ := exists_makeDirectoriesFrom_of_isOpen hr hqplain habove.trim hqcheck
    (fun s hs ↦ h.fits s (hstart.subset hs)) (horigin ▸ habove.names ▸ hway)
    (.inr (Nat.lt_succ_self q.pieces.length))
  have hmade := directoriesMade_of_eq_none hr hqplain habove.trim hqcheck hmake
  rw [horigin, habove.names] at hmade
  refine ⟨made, made.insert (t.spelled p) (.file content), ?_, ?_⟩
  · rw [hq]
    exact hmake
  have hnot : ¬ t.spelled p <+: t.origin p ++ namesIn above := by
    rw [spelled, List.prefix_append_right_inj]
    exact not_prefix_of_pieces hpieces hn
  rw [write_eq_ok_iff (hp.of_directoriesMade hmade) hpieces hn, hmade.seenAlike.origin,
    hmade.seenAlike.spelled, hmade.seenAlike.refusal?, hmade.entry?, if_neg hnot]
  refine ⟨h.check, h.fits, fun q hq ↦ ?_, h.place, haccess, rfl⟩
  rw [Enterable, hmade.entry?, if_pos ((List.prefix_append_right_inj _).mpr hq),
    hmade.seenAlike.refusal?]
  exact ⟨rfl, (hway q hq).2⟩

/-! ### Other paths -/

/-- On the way to where there is room for a file stands nothing but directories, or they may be
made. -/
theorem Placeable.makeable_above (hr : t.Rooted) (h : t.Placeable p) {names : Names}
    (hn : names <+: t.spelled p) (hne : names ≠ t.spelled p) : t.Makeable names := by
  obtain ⟨above, name, hpieces, hname⟩ := exists_pieces_of_ends h.ends
  have hway := h.way
  rw [dropLast_names hpieces hname] at hway
  rw [spelled_of_pieces t hpieces hname] at hn hne
  have hstart := (List.prefix_concat_iff.mp hn).resolve_left hne
  rcases List.prefix_or_prefix_of_prefix hstart (List.prefix_append _ _) with hle | ⟨q, rfl⟩
  · exact .inl (hr.entry?_of_prefix (hr.entry?_origin p) hle)
  · exact (hway q ((List.prefix_append_right_inj _).mp hstart)).1

/-- What may be made or stands there as a directory is no file. -/
theorem Makeable.ne_file {names : Names} (h : t.Makeable names) :
    t.entry? names ≠ some (.file content) := by
  rcases h with h | ⟨h, -⟩ <;> simp [h]

/-- No link comes to stand where files are put. -/
theorem Placed.plain {files : List (Names × ByteArray)} (hput : t.Placed u files)
    (hq : t.Plain q) : u.Plain q := by
  refine ⟨hq.not_up, fun names hn target he ↦ ?_⟩
  rw [hput.seenAlike.origin, hput.entry?, entryAfter] at he
  split at he
  · cases he
  split at he
  · cases he
  · exact hq.unlinked names hn target he

/-- Under names apart from those of a file that is put somewhere all stays as it was. -/
theorem Placed.entry?_of_apart (hput : t.Placed u [(t.spelled p, content)]) {names : Names}
    (hapart : Apart (t.spelled p) names) : u.entry? names = t.entry? names := by
  rw [hput.entry?, entryAfter_single, if_neg hapart.ne, if_neg hapart.2]

/-- Paths at which files can be put one after the other are apart unless they spell the same
names. -/
theorem Placed.apart (hput : t.Placed u [(t.spelled p, content)]) (hq : u.Placeable q)
    (hne : t.spelled p ≠ t.spelled q) : Apart (t.spelled p) (t.spelled q) := by
  constructor
  · intro hstart
    have hfile : u.entry? (t.spelled p) = some (.file content) := by
      rw [hput.entry?, entryAfter_single, if_pos rfl]
    rw [← hput.seenAlike.spelled q] at hstart hne
    exact (hq.makeable_above hput.rooted hstart hne).ne_file hfile
  · intro hstart
    have hdir : u.entry? (t.spelled q) = some .directory := by
      rw [hput.entry?, entryAfter_single, if_neg hne, if_pos hstart]
    have hplace := hq.place
    rw [hput.seenAlike.spelled, hdir] at hplace
    rcases hplace with h | ⟨old, h⟩ <;> cases h

/-- Whether there is room for a file does not depend on a file put at a path apart. -/
theorem Placed.placeable_iff (hr : t.Rooted) (hput : t.Placed u [(t.spelled p, content)])
    (hp : t.Placeable p) (hapart : Apart (t.spelled p) (t.spelled q)) :
    u.Placeable q ↔ t.Placeable q := by
  have hplace := hput.entry?_of_apart hapart
  have hway (names : Names) (hn : names <+: q.names.dropLast) :
      u.Passable (t.origin q ++ names) ↔ t.Passable (t.origin q ++ names) := by
    have hstart : t.origin q ++ names <+: t.spelled q :=
      (List.prefix_append_right_inj _).mpr (hn.trans (List.dropLast_prefix _))
    have hne : t.spelled p ≠ t.origin q ++ names := fun heq ↦ hapart.1 (heq ▸ hstart)
    rw [Passable, Passable, hput.seenAlike.refusal?]
    refine and_congr_left fun _ ↦ ?_
    rw [Makeable, hput.seenAlike.refusal?, hput.entry?, entryAfter_single, if_neg hne]
    split
    · next hbefore => simpa using hp.makeable_above hr hbefore (Ne.symm hne)
    · rfl
  constructor
  · rintro ⟨hcheck, hends, hfits, hopen, hfree⟩
    rw [hput.seenAlike.spelled, hplace] at hfree
    rw [hput.seenAlike.origin] at hopen
    exact ⟨hcheck, hends, hfits, fun names hn ↦ (hway names hn).mp (hopen names hn), hfree⟩
  · rintro ⟨hcheck, hends, hfits, hopen, hfree⟩
    refine ⟨hcheck, hends, hfits, fun names hn ↦ ?_, ?_⟩
    · rw [hput.seenAlike.origin]
      exact (hway names hn).mpr (hopen names hn)
    · rwa [hput.seenAlike.spelled, hplace]

/-- A file that is put and then others, all apart from it, are put all together. -/
theorem Placed.trans {v : FileTree} {names : Names} {files : List (Names × ByteArray)}
    (hput : t.Placed u [(names, content)]) (hrest : u.Placed v files)
    (hapart : ∀ file ∈ files, Apart names file.1) :
    t.Placed v ((names, content) :: files) := by
  refine ⟨hrest.rooted, hput.seenAlike.trans hrest.seenAlike, fun q ↦ ?_⟩
  rw [hrest.entry?, entryAfter, entryAfter, KeyMap.firstValue_cons]
  cases hvalue : KeyMap.firstValue files q with
  | some other =>
    rw [if_neg (hapart _ (KeyMap.mem_of_firstValue hvalue)).ne]
  | none =>
    have hcons : (∃ file ∈ (names, content) :: files, q <+: file.1) ↔
        q <+: names ∨ ∃ file ∈ files, q <+: file.1 := by
      simp
    rw [hput.entry?, entryAfter_single]
    simp only [hcons]
    by_cases heq : names = q
    · subst heq
      have hnone : ¬ ∃ file ∈ files, names <+: file.1 :=
        fun ⟨file, hfile, hstart⟩ ↦ (hapart file hfile).1 hstart
      simp [hnone]
    · rw [if_neg heq, if_neg heq]
      by_cases hstart : q <+: names
      · simp [hstart]
      · simp only [hstart, if_false, false_or]

end Step

end FileTree

end KeyHarvest
