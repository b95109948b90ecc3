import KeyHarvest.Proofs.Files.Spelling
import KeyHarvest.Proofs.Sources.Scan
import Mathlib.Algebra.GroupWithZero.Nat
import Mathlib.Data.List.Sort

/-!
# Scans with joined options

Each entry of the options of a scan has its own say: a path is kept if some included entry leads to
it, no ignored entry covers it and some extension is its own (`finds_iff_keeps`). So more included
entries or extensions add files, and more ignored entries take files away
(`scan_of_joined_options`).

Ignored patterns are matched with the text of a path. Where a scan reaches a file under two texts,
one ignored pattern may cover the first and another the second: either alone leaves the file, and
both together do not (`scan_loses_shared_file`). Everywhere else two lists of ignored entries
together leave what both of them leave.
-/

namespace KeyHarvest

open KeyHarvest.Path

namespace ScanOptions

/-! ### Single entries -/

/-- An included entry leads to a path: a walk from one of its roots lists it. -/
def LeadsTo (t : FileTree) (base : Path) (entry : String) (q : Path) : Prop :=
  ∃ root ∈ (includedBy t base entry).toOption.getD [], .ok q ∈ t.walk root

/-- Whether an ignored entry covers a path. What has a wildcard and is no pattern covers none. -/
def covers (base : Path) (entry : String) (q : Path) : Bool :=
  if Glob.hasWildcard entry then (Glob.parse entry).toOption.any (·.accepts q.text)
  else q.startsWith (base.join ⟨entry⟩)

/-- A scan reaches a path under the text that it has. -/
def Reaches (options : ScanOptions) (t : FileTree) (base q : Path) : Prop :=
  options.includes = [] ∧ .ok q ∈ t.walk base ∨ ∃ entry ∈ options.includes, LeadsTo t base entry q

/-- A scan keeps a path under the text that it has. -/
structure Keeps (options : ScanOptions) (t : FileTree) (base q : Path) : Prop where
  reached : options.Reaches t base q
  isFile : t.isFile q = true
  spared : ∀ entry ∈ options.ignores, covers base entry q = false
  extension : ∃ e ∈ options.extensions, hasExtension [e] q = true

section Entries

variable {options : ScanOptions} {t : FileTree} {base q : Path}

private theorem reaches_iff_mem_roots : options.Reaches t base q ↔
    ∃ root ∈ (options.roots t base).1, .ok q ∈ t.walk root := by
  rw [Reaches, roots]
  by_cases hnone : options.includes = []
  · simp [hnone]
  · rw [if_neg (by simpa using hnone)]
    simp only [hnone, false_and, false_or, LeadsTo, List.flatMap_map, List.mem_flatMap]
    constructor
    · rintro ⟨entry, hentry, root, hroot, hq⟩
      exact ⟨root, ⟨entry, hentry, hroot⟩, hq⟩
    · rintro ⟨root, ⟨entry, hentry, hroot⟩, hq⟩
      exact ⟨entry, hentry, root, hroot, hq⟩

private theorem reaches_iff : options.Reaches t base q ↔
    options.ReachedByPath t base q ∨ options.ReachedByPattern t base q := by
  rw [reaches_iff_mem_roots, ReachedByPath, ReachedByPattern, ← exists_or]
  simp only [mem_roots_iff, or_and_right]

private theorem ignored_eq_any : ignored (options.ignoredPaths base) options.ignoredGlobs q =
    options.ignores.any (covers base · q) := by
  have hpaths : (options.ignoredPaths base).any q.startsWith = options.ignores.any fun entry ↦
      !Glob.hasWildcard entry && q.startsWith (base.join ⟨entry⟩) := by
    rw [ignoredPaths, List.any_map, List.any_filter]
    rfl
  have hglobs : options.ignoredGlobs.any (·.accepts q.text) = options.ignores.any fun entry ↦
      Glob.hasWildcard entry && (Glob.parse entry).toOption.any (·.accepts q.text) := by
    rw [ignoredGlobs, List.any_filterMap, List.any_filter]
    rfl
  rw [ignored, hpaths, hglobs, Bool.eq_iff_iff, Bool.or_eq_true, List.any_eq_true, List.any_eq_true,
    List.any_eq_true, ← exists_or]
  refine exists_congr fun entry ↦ ?_
  rw [← and_or_left, covers]
  cases Glob.hasWildcard entry <;> simp

private theorem hasExtension_iff (extensions : List String) (q : Path) :
    hasExtension extensions q = true ↔ ∃ e ∈ extensions, hasExtension [e] q = true := by
  simp only [hasExtension]
  cases q.extension? with
  | none => simp
  | some e => simp

private theorem keeps_iff : options.Keeps t base q ↔ options.Reaches t base q ∧ options.Admits t q ∧
    ∀ dir ∈ options.ignoredPaths base, q.startsWith dir = false := by
  have hspared : (∀ entry ∈ options.ignores, covers base entry q = false) ↔
      (∀ dir ∈ options.ignoredPaths base, q.startsWith dir = false) ∧
        ∀ g ∈ options.ignoredGlobs, g.accepts q.text = false := by
    have h : options.ignores.any (covers base · q) = false ↔
        ignored (options.ignoredPaths base) options.ignoredGlobs q = false := by
      rw [ignored_eq_any]
    simpa [ignored] using h
  constructor
  · rintro ⟨hreached, hfile, hkept, hextension⟩
    obtain ⟨hdirs, hglobs⟩ := hspared.mp hkept
    exact ⟨hreached, ⟨hfile, (hasExtension_iff _ q).mpr hextension, hglobs⟩, hdirs⟩
  · rintro ⟨hreached, ⟨hfile, hextension, hglobs⟩, hdirs⟩
    exact ⟨hreached, hfile, hspared.mpr ⟨hdirs, hglobs⟩, (hasExtension_iff _ q).mp hextension⟩

/-- A scan finds what it keeps under some text. -/
theorem finds_iff_keeps : t.Finds base options q ↔
    ∃ r, r.sameAs q = true ∧ options.Keeps t base r := by
  simp only [FileTree.finds_iff, Offers, keeps_iff, reaches_iff, ← exists_or, ← and_or_left,
    ← or_and_right]
  constructor
  · rintro ⟨⟨r, hr, hreached, hadmits⟩, hdirs⟩
    exact ⟨r, hr, hreached, hadmits, fun dir hdir ↦ startsWith_congr hr dir ▸ hdirs dir hdir⟩
  · rintro ⟨r, hr, hreached, hadmits, hdirs⟩
    exact ⟨⟨r, hr, hreached, hadmits⟩, fun dir hdir ↦ startsWith_congr hr dir ▸ hdirs dir hdir⟩

end Entries

/-! ### Texts of one path -/

/-- Each ignored entry covers all texts under which a scan reaches a path, or none of them. -/
def CoversEvenly (options : ScanOptions) (t : FileTree) (base q : Path) : Prop :=
  ∀ entry ∈ options.ignores, ∀ r r', r.sameAs q = true → r'.sameAs q = true →
    options.Reaches t base r → options.Reaches t base r' →
      covers base entry r = covers base entry r'

section Texts

variable {options : ScanOptions} {t : FileTree} {base : Path}

/-- Ignored paths do not go by the text. -/
theorem coversEvenly_of_paths (h : ∀ entry ∈ options.ignores, Glob.hasWildcard entry = false)
    (q : Path) : options.CoversEvenly t base q := by
  intro entry hentry r r' hr hr' _ _
  rw [covers, covers, h entry hentry, if_neg Bool.false_ne_true, if_neg Bool.false_ne_true,
    startsWith_congr hr, startsWith_congr hr']

/-- From a single root a path is reached under one text only. -/
theorem coversEvenly_of_root (hn : t.WellNamed) {root : Path}
    (h : ∀ r ∈ (options.roots t base).1, r = root) (q : Path) :
    options.CoversEvenly t base q := by
  intro entry _ r r' hr hr' hreached hreached'
  obtain ⟨a, ha, hr₁⟩ := reaches_iff_mem_roots.mp hreached
  obtain ⟨b, hb, hr₂⟩ := reaches_iff_mem_roots.mp hreached'
  rw [h a ha] at hr₁
  rw [h b hb] at hr₂
  have hsame : r.sameAs r' = true := by
    rw [sameAs_iff, (sameAs_iff r q).mp hr, (sameAs_iff r' q).mp hr']
  rw [FileTree.eq_of_mem_walk hn hr₁ hr₂ hsame]

end Texts

/-- The skipped paths of a scan are what the walks from its roots give up, one by one. -/
theorem skipped_eq_sum (options : ScanOptions) (t : FileTree) (base : Path) :
    (t.scan base options).skipped =
      ((options.roots t base).1.map fun root ↦ (t.walk root).countP (!·.isOk)).sum := by
  show (List.filterMap _ ((options.roots t base).1.flatMap t.walk)).length = _
  rw [List.length_filterMap_eq_countP, List.countP_flatMap]
  refine congrArg List.sum (List.map_congr_left fun root _ ↦ List.countP_congr fun r _ ↦ ?_)
  cases r <;> rfl

/-! ### More options -/

/-- One list of options says all that another says, for a scan that leaves out as little. -/
structure Extends (options options' : ScanOptions) : Prop where
  includes : options.includes ⊆ options'.includes
  /-- No included entries stand for the base directory, which other entries need not include. -/
  whole : options.includes = [] → options'.includes = []
  ignores : options'.ignores ⊆ options.ignores
  extensions : options.extensions ⊆ options'.extensions

section More

variable {options options' : ScanOptions} {t : FileTree} {base q : Path}

private theorem Extends.reaches (h : options.Extends options') (hq : options.Reaches t base q) :
    options'.Reaches t base q := by
  rcases hq with ⟨hnone, hq⟩ | ⟨entry, hentry, hq⟩
  · exact .inl ⟨h.whole hnone, hq⟩
  · exact .inr ⟨entry, h.includes hentry, hq⟩

private theorem Extends.keeps (h : options.Extends options') (hq : options.Keeps t base q) :
    options'.Keeps t base q := by
  obtain ⟨e, he, hextension⟩ := hq.extension
  exact ⟨h.reaches hq.reached, hq.isFile, fun entry hentry ↦ hq.spared entry (h.ignores hentry),
    e, h.extensions he, hextension⟩

/-- What a scan finds, one for more finds too. -/
theorem Extends.finds (h : options.Extends options') (hq : t.Finds base options q) :
    t.Finds base options' q := by
  obtain ⟨r, hr, hkeeps⟩ := finds_iff_keeps.mp hq
  exact finds_iff_keeps.mpr ⟨r, hr, h.keeps hkeeps⟩

/-- Scans that find the same have the same list of files, up to the texts of the paths. -/
theorem map_components_files_eq (h : ∀ q, t.Finds base options q ↔ t.Finds base options' q) :
    (t.scan base options).files.map components = (t.scan base options').files.map components := by
  have hsorted (options : ScanOptions) :
      ((t.scan base options).files.map sortKey).Pairwise (· < ·) :=
    List.pairwise_map.mpr (pairwise_sortKey_sortPaths _)
  have hmem (options : ScanOptions) (q : Path) :
      q.sortKey ∈ (t.scan base options).files.map sortKey ↔ t.Finds base options q := by
    simp only [List.mem_map, sortKey_eq_iff, FileTree.Finds]
  have hkeys :
      (t.scan base options).files.map sortKey = (t.scan base options').files.map sortKey := by
    refine (hsorted options).eq_of_mem_iff (hsorted options') fun key ↦
      ⟨fun hkey ↦ ?_, fun hkey ↦ ?_⟩
    · obtain ⟨q, -, rfl⟩ := List.mem_map.mp hkey
      exact (hmem options' q).mpr ((h q).mp ((hmem options q).mp hkey))
    · obtain ⟨q, -, rfl⟩ := List.mem_map.mp hkey
      exact (hmem options q).mpr ((h q).mpr ((hmem options' q).mp hkey))
  have htexts : sortKey = List.map Component.sortText ∘ components := rfl
  rw [htexts, ← List.map_map, ← List.map_map] at hkeys
  exact List.map_injective_iff.mpr
    (List.map_injective_iff.mpr fun _ _ ↦ (Component.sortText_injective ·)) hkeys

end More

/-! ### Joined options -/

section Joined

variable {t : FileTree} {base q : Path} {includes ignores extensions more : List String}

/-- Two lists of ignored entries together leave what both leave under one text. -/
theorem keeps_append_ignores : Keeps ⟨includes, ignores ++ more, extensions⟩ t base q ↔
    Keeps ⟨includes, ignores, extensions⟩ t base q ∧
      Keeps ⟨includes, more, extensions⟩ t base q := by
  constructor
  · rintro ⟨hreached, hfile, hspared, hextension⟩
    obtain ⟨hignores, hmore⟩ := List.forall_mem_append.mp hspared
    exact ⟨⟨hreached, hfile, hignores, hextension⟩, ⟨hreached, hfile, hmore, hextension⟩⟩
  · rintro ⟨⟨hreached, hfile, hignores, hextension⟩, ⟨-, -, hmore, -⟩⟩
    exact ⟨hreached, hfile, List.forall_mem_append.mpr ⟨hignores, hmore⟩, hextension⟩

/-- What a list that covers texts evenly leaves under one text it leaves under each other. -/
theorem Keeps.of_coversEvenly (heven : CoversEvenly ⟨includes, ignores, extensions⟩ t base q)
    {r r' : Path} (hr : r.sameAs q = true) (hr' : r'.sameAs q = true)
    (h : Keeps ⟨includes, ignores, extensions⟩ t base r)
    (h' : Keeps ⟨includes, more, extensions⟩ t base r') :
    Keeps ⟨includes, ignores, extensions⟩ t base r' :=
  ⟨h'.reached, h'.isFile,
    fun entry hentry ↦ (heven entry hentry r' r hr' hr h'.reached h.reached).trans
      (h.spared entry hentry), h'.extension⟩

private theorem keeps_append_includes (h : includes ≠ []) (h' : more ≠ []) :
    Keeps ⟨includes ++ more, ignores, extensions⟩ t base q ↔
      Keeps ⟨includes, ignores, extensions⟩ t base q ∨
        Keeps ⟨more, ignores, extensions⟩ t base q := by
  have hreaches : Reaches ⟨includes ++ more, ignores, extensions⟩ t base q ↔
      Reaches ⟨includes, ignores, extensions⟩ t base q ∨
        Reaches ⟨more, ignores, extensions⟩ t base q := by
    simp [Reaches, h, h', or_and_right, exists_or]
  constructor
  · rintro ⟨hreached, hfile, hspared, hextension⟩
    exact (hreaches.mp hreached).imp (⟨·, hfile, hspared, hextension⟩)
      (⟨·, hfile, hspared, hextension⟩)
  · rintro (⟨hreached, hfile, hspared, hextension⟩ | ⟨hreached, hfile, hspared, hextension⟩)
    · exact ⟨hreaches.mpr (.inl hreached), hfile, hspared, hextension⟩
    · exact ⟨hreaches.mpr (.inr hreached), hfile, hspared, hextension⟩

private theorem keeps_append_extensions : Keeps ⟨includes, ignores, extensions ++ more⟩ t base q ↔
    Keeps ⟨includes, ignores, extensions⟩ t base q ∨ Keeps ⟨includes, ignores, more⟩ t base q := by
  constructor
  · rintro ⟨hreached, hfile, hspared, e, he, hextension⟩
    exact (List.mem_append.mp he).imp (⟨hreached, hfile, hspared, e, ·, hextension⟩)
      (⟨hreached, hfile, hspared, e, ·, hextension⟩)
  · rintro (h | h)
    · obtain ⟨e, he, hextension⟩ := h.extension
      exact ⟨h.reached, h.isFile, h.spared, e, List.mem_append_left _ he, hextension⟩
    · obtain ⟨e, he, hextension⟩ := h.extension
      exact ⟨h.reached, h.isFile, h.spared, e, List.mem_append_right _ he, hextension⟩

private theorem finds_append_ignores
    (heven : CoversEvenly ⟨includes, ignores, extensions⟩ t base q ∨
      CoversEvenly ⟨includes, more, extensions⟩ t base q) :
    t.Finds base ⟨includes, ignores ++ more, extensions⟩ q ↔
      t.Finds base ⟨includes, ignores, extensions⟩ q ∧
        t.Finds base ⟨includes, more, extensions⟩ q := by
  simp only [finds_iff_keeps, keeps_append_ignores]
  constructor
  · rintro ⟨r, hr, hkeeps, hkeeps'⟩
    exact ⟨⟨r, hr, hkeeps⟩, ⟨r, hr, hkeeps'⟩⟩
  · rintro ⟨⟨r, hr, hkeeps⟩, ⟨r', hr', hkeeps'⟩⟩
    rcases heven with heven | heven
    · exact ⟨r', hr', .of_coversEvenly heven hr hr' hkeeps hkeeps', hkeeps'⟩
    · exact ⟨r, hr, hkeeps, .of_coversEvenly heven hr' hr hkeeps' hkeeps⟩

/-- The paths that included entries lead to and that cannot be walked are counted entry by entry. -/
theorem skipped_append_includes (h : includes ≠ []) (h' : more ≠ []) :
    (t.scan base ⟨includes ++ more, ignores, extensions⟩).skipped =
      (t.scan base ⟨includes, ignores, extensions⟩).skipped +
        (t.scan base ⟨more, ignores, extensions⟩).skipped := by
  have hroots : (roots ⟨includes ++ more, ignores, extensions⟩ t base).1 =
      (roots ⟨includes, ignores, extensions⟩ t base).1 ++
        (roots ⟨more, ignores, extensions⟩ t base).1 := by
    simp [roots, h, h']
  rw [skipped_eq_sum, skipped_eq_sum, skipped_eq_sum, hroots, List.map_append, List.sum_append]

end Joined

end ScanOptions

namespace FileTree

open ScanOptions

/-- What scans with joined options find. More ignored entries leave what both lists leave under one
text of its path, which is what both lists leave unless each of them tells apart texts under which a
path is reached: no list of paths does, nor any list where a single root reaches everything.
Included entries, where there are some, and extensions add up. So scans go by the members of the
lists alone, and find the more the more they include and the less they ignore. -/
theorem scan_of_joined_options (t : FileTree) (base : Path) (options : ScanOptions)
    (more : List String) :
    (∀ q, (t.Finds base { options with ignores := options.ignores ++ more } q ↔
        ∃ r, r.sameAs q = true ∧ options.Keeps t base r ∧
          { options with ignores := more }.Keeps t base r) ∧
      (options.CoversEvenly t base q ∨ { options with ignores := more }.CoversEvenly t base q →
        (t.Finds base { options with ignores := options.ignores ++ more } q ↔
          t.Finds base options q ∧ t.Finds base { options with ignores := more } q))) ∧
    ((∀ entry ∈ options.ignores, Glob.hasWildcard entry = false) ∨
        t.WellNamed ∧ (∃ root, ∀ r ∈ (options.roots t base).1, r = root) →
      ∀ q, options.CoversEvenly t base q) ∧
    (options.includes ≠ [] → more ≠ [] →
      (∀ q, t.Finds base { options with includes := options.includes ++ more } q ↔
        t.Finds base options q ∨ t.Finds base { options with includes := more } q) ∧
      (t.scan base { options with includes := options.includes ++ more }).skipped =
        (t.scan base options).skipped + (t.scan base { options with includes := more }).skipped) ∧
    (∀ q, t.Finds base { options with extensions := options.extensions ++ more } q ↔
      t.Finds base options q ∨ t.Finds base { options with extensions := more } q) ∧
    ∀ options', (options.Extends options' → ∀ q, t.Finds base options q → t.Finds base options' q) ∧
      ((∀ s, s ∈ options.includes ↔ s ∈ options'.includes) →
        (∀ s, s ∈ options.ignores ↔ s ∈ options'.ignores) →
        (∀ s, s ∈ options.extensions ↔ s ∈ options'.extensions) →
        (t.scan base options).files.map components =
          (t.scan base options').files.map components) := by
  refine ⟨fun q ↦ ⟨?_, finds_append_ignores⟩, ?_, fun hsome hmore ↦ ⟨fun q ↦ ?_, ?_⟩, fun q ↦ ?_,
    fun options' ↦ ⟨fun h q ↦ h.finds, fun hincludes hignores hextensions ↦ ?_⟩⟩
  · rw [finds_iff_keeps]
    exact exists_congr fun r ↦ and_congr_right fun _ ↦ keeps_append_ignores
  · rintro (hpaths | ⟨hn, root, hroot⟩) q
    · exact coversEvenly_of_paths hpaths q
    · exact coversEvenly_of_root hn hroot q
  · simp only [finds_iff_keeps, keeps_append_includes hsome hmore, and_or_left, exists_or]
  · exact skipped_append_includes hsome hmore
  · simp only [finds_iff_keeps, keeps_append_extensions, and_or_left, exists_or]
  · have hnone : options.includes = [] ↔ options'.includes = [] := by
      rw [List.eq_nil_iff_forall_not_mem, List.eq_nil_iff_forall_not_mem]
      exact forall_congr' fun s ↦ not_congr (hincludes s)
    refine map_components_files_eq fun q ↦ ⟨Extends.finds ⟨?_, hnone.mp, ?_, ?_⟩,
      Extends.finds ⟨?_, hnone.mpr, ?_, ?_⟩⟩
    · exact fun s ↦ (hincludes s).mp
    · exact fun s ↦ (hignores s).mpr
    · exact fun s ↦ (hextensions s).mp
    · exact fun s ↦ (hincludes s).mpr
    · exact fun s ↦ (hignores s).mp
    · exact fun s ↦ (hextensions s).mpr

/-- A project with an ignored pattern, to which a path is added in each list of its options, and all
entries of the options are repeated. -/
theorem scan_of_joined_options_lib :
    let t : FileTree := { entries := .ofList [(["lib"], .directory),
      (["lib", "util.js"], .file .empty), (["src"], .directory), (["src", "app.js"], .file .empty),
      (["src", "vendor"], .directory), (["src", "vendor", "big.js"], .file .empty)] }
    let base : Path := ⟨"."⟩
    let options : ScanOptions := ⟨["src"], ["**/vendor/*"], ["js"]⟩
    let repeated : ScanOptions := ⟨["src", "src"], ["**/vendor/*", "**/vendor/*"], ["js", "js"]⟩
    let scan (options : ScanOptions) : List Path := (t.scan base options).files
    t.WellNamed ∧ (∀ r ∈ (options.roots t base).1, r = ⟨"./src"⟩) ∧
      (∀ q, t.Finds base { options with ignores := ["**/vendor/*", "lib"] } q ↔
        t.Finds base options q ∧ t.Finds base { options with ignores := ["lib"] } q) ∧
      (∀ q, t.Finds base { options with includes := ["src", "lib"] } q ↔
        t.Finds base options q ∨ t.Finds base { options with includes := ["lib"] } q) ∧
      options.Extends { options with ignores := [] } ∧
      (∀ q, t.Finds base options q → t.Finds base { options with ignores := [] } q) ∧
      (scan options).map components = (scan repeated).map components ∧
      scan options = [⟨"./src/app.js"⟩] ∧
      scan { options with includes := ["src", "lib"] } = [⟨"./lib/util.js"⟩, ⟨"./src/app.js"⟩] ∧
      scan { options with ignores := [] } = [⟨"./src/app.js"⟩, ⟨"./src/vendor/big.js"⟩] := by
  intro t base options repeated scan
  have hn : t.WellNamed := by decide +kernel
  have hroot : ∀ r ∈ (options.roots t base).1, r = ⟨"./src"⟩ := by decide +kernel
  obtain ⟨hignores, heven, hincludes, -, hlists⟩ :=
    scan_of_joined_options t base options ["lib"]
  have hextends : options.Extends { options with ignores := [] } :=
    ⟨List.Subset.refl _, id, List.nil_subset _, List.Subset.refl _⟩
  refine ⟨hn, hroot, fun q ↦ (hignores q).2 (.inl (heven (.inr ⟨hn, _, hroot⟩) q)),
    (hincludes (by decide) (by decide)).1, hextends, (hlists _).1 hextends,
    (hlists repeated).2 (by simp [options, repeated]) (by simp [options, repeated])
      (by simp [options, repeated]), ?_, ?_, ?_⟩ <;> decide +kernel

/-- A file that two included entries reach, each under its own text, is lost to two ignored patterns
that leave one text each. -/
theorem scan_loses_shared_file :
    let t : FileTree := { entries := .ofList [(["src"], .directory), (["src", "app"], .directory),
      (["src", "app", "main.js"], .file .empty)] }
    let scan (ignores : List String) := (t.scan ⟨"src"⟩ ⟨["app", "./app"], ignores, ["js"]⟩).files
    scan ["src/app/*"] = [⟨"src/./app/main.js"⟩] ∧ scan ["src/./*"] = [⟨"src/app/main.js"⟩] ∧
      Path.sameAs ⟨"src/./app/main.js"⟩ ⟨"src/app/main.js"⟩ = true ∧
      scan ["src/app/*", "src/./*"] = [] := by
  refine ⟨?_, ?_, ?_, ?_⟩ <;> decide +kernel

end FileTree

end KeyHarvest
