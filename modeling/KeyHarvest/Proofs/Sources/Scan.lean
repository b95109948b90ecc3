import KeyHarvest.Proofs.Files.Glob.Expand
import KeyHarvest.Sources

/-!
# What a scan finds

A scan walks from its roots: the base directory or the included paths, and what the included
patterns match. Of what it reaches it keeps the files that have one of the extensions and are not
ignored (`finds_iff`).

An ignored path leaves out what is written as it is. A path made of the base directory begins as
that does, the match of a pattern never begins with a dot. So under a base directory that begins
with a dot ignored paths leave out what was reached through paths, and nothing of what was reached
through patterns; under any other one, from the top or not, they leave out all that is at or below
them (`scan_ignores_path`).
-/

namespace KeyHarvest

open KeyHarvest.Path

namespace ScanOptions

/-! ### Sorted paths -/

private theorem get?_foldl_sortKey (paths : List Path) (sorted : KeyMap (List String) Path)
    (k : List String) : (paths.foldl (fun (sorted : KeyMap (List String) Path) p ↦
      if sorted.contains p.sortKey then sorted else sorted.insert p.sortKey p) sorted).get? k =
      (sorted.get? k).or (paths.find? fun p ↦ p.sortKey == k) := by
  induction paths generalizing sorted with
  | nil => simp
  | cons p paths ih =>
    rw [List.foldl_cons, ih, List.find?_cons]
    by_cases hk : p.sortKey = k
    · subst hk
      rw [BEq.rfl]
      by_cases hc : sorted.contains p.sortKey = true
      · rw [if_pos hc]
        obtain ⟨q, hq⟩ := Option.isSome_iff_exists.mp hc
        rw [hq, Option.some_or, Option.some_or]
      · have hnone : sorted.get? p.sortKey = none := by simpa [KeyMap.contains] using hc
        rw [if_neg hc, KeyMap.get?_insert, if_pos rfl, hnone, Option.some_or, Option.none_or]
    · rw [beq_false_of_ne hk]
      split
      · rfl
      · rw [KeyMap.get?_insert, if_neg hk]

private theorem eq_sortKey_of_find? {paths : List Path} {k : List String} {r : Path}
    (h : paths.find? (fun p ↦ p.sortKey == k) = some r) : k = r.sortKey := by
  have hk := List.find?_some h
  exact (beq_iff_eq.mp hk).symm

/-- Of the paths that are the same the first stays. -/
theorem mem_sortPaths_iff (paths : List Path) (r : Path) :
    r ∈ sortPaths paths ↔ paths.find? (·.sameAs r) = some r := by
  have hsame : (fun p : Path ↦ p.sortKey == r.sortKey) = (·.sameAs r) := by
    ext1 p
    rw [Bool.eq_iff_iff, beq_iff_eq, sortKey_eq_iff]
  rw [sortPaths, KeyMap.values, List.mem_map, ← hsame]
  constructor
  · rintro ⟨⟨k, v⟩, hmem, rfl⟩
    rw [KeyMap.mem_entries_iff, get?_foldl_sortKey, KeyMap.get?_empty, Option.none_or] at hmem
    rw [← eq_sortKey_of_find? hmem, hmem]
  · intro h
    refine ⟨(r.sortKey, r), ?_, rfl⟩
    rw [KeyMap.mem_entries_iff, get?_foldl_sortKey, KeyMap.get?_empty, Option.none_or, h]

/-- A path is among the sorted ones if it is the same as one of those before. -/
theorem exists_mem_sortPaths_iff (paths : List Path) (q : Path) :
    (∃ r ∈ sortPaths paths, r.sameAs q = true) ↔ ∃ r ∈ paths, r.sameAs q = true := by
  simp only [mem_sortPaths_iff]
  constructor
  · rintro ⟨r, hr, hq⟩
    exact ⟨r, List.mem_of_find?_eq_some hr, hq⟩
  · rintro ⟨r, hr, hq⟩
    obtain ⟨first, hfirst⟩ : ∃ first, paths.find? (·.sameAs q) = some first :=
      Option.isSome_iff_exists.mp (List.find?_isSome.mpr ⟨r, hr, hq⟩)
    have hsame := List.find?_some hfirst
    refine ⟨first, ?_, hsame⟩
    rw [← hfirst]
    congr 1
    ext1 p
    rw [Bool.eq_iff_iff, sameAs_iff, sameAs_iff, (sameAs_iff first q).mp hsame]

/-- Sorted paths are in the order of their components, no two of them the same. -/
theorem pairwise_sortKey_sortPaths (paths : List Path) :
    (sortPaths paths).Pairwise (·.sortKey < ·.sortKey) := by
  rw [sortPaths, KeyMap.values, List.pairwise_map]
  refine (KeyMap.ascending _).imp_of_mem fun {a b} ha hb hlt ↦ ?_
  have hkey (e : List String × Path) (he : e ∈ (paths.foldl (fun sorted p ↦
      if sorted.contains p.sortKey then sorted else sorted.insert p.sortKey p)
      (KeyMap.empty : KeyMap (List String) Path)).entries) : e.1 = e.2.sortKey := by
    rw [KeyMap.mem_entries_iff, get?_foldl_sortKey, KeyMap.get?_empty, Option.none_or] at he
    exact eq_sortKey_of_find? he
  rwa [← hkey a ha, ← hkey b hb]

/-! ### Roots -/

/-- A root that is written in the options: an included path that exists, or the base directory. -/
def IsPathRoot (options : ScanOptions) (t : FileTree) (base root : Path) : Prop :=
  options.includes = [] ∧ root = base ∨
    ∃ text ∈ options.includes, Glob.hasWildcard text = false ∧ root = base.join ⟨text⟩ ∧
      t.pathExists root = true

/-- A root that an included pattern matches. -/
def IsPatternRoot (options : ScanOptions) (t : FileTree) (base root : Path) : Prop :=
  ∃ text ∈ options.includes, Glob.hasWildcard text = true ∧
    ∃ found, Glob.expand t (base.join ⟨text⟩) = .ok found ∧ root ∈ found

private theorem mem_includedBy_iff (t : FileTree) (base root : Path) (text : String) :
    root ∈ (includedBy t base text).toOption.getD [] ↔
      Glob.hasWildcard text = false ∧ root = base.join ⟨text⟩ ∧ t.pathExists root = true ∨
        Glob.hasWildcard text = true ∧
          ∃ found, Glob.expand t (base.join ⟨text⟩) = .ok found ∧ root ∈ found := by
  rw [includedBy]
  by_cases hwild : Glob.hasWildcard text = true
  · rw [if_pos hwild]
    cases hfound : Glob.expand t (base.join ⟨text⟩) with
    | error e => simp [hwild, Except.toOption]
    | ok found => simp [hwild, Except.toOption]
  · rw [if_neg hwild]
    rw [Bool.not_eq_true] at hwild
    simp only [hwild, true_and, Bool.false_eq_true, false_and, or_false]
    split
    · next hexists =>
      rw [Except.toOption, Option.getD_some, List.mem_singleton]
      exact ⟨fun h ↦ ⟨h, h ▸ hexists⟩, And.left⟩
    · next hmissing =>
      refine ⟨nofun, ?_⟩
      rintro ⟨rfl, hexists⟩
      exact absurd hexists hmissing

/-- The roots of a scan are those that are written in the options and those that patterns match. -/
theorem mem_roots_iff (options : ScanOptions) (t : FileTree) (base root : Path) :
    root ∈ (options.roots t base).1 ↔
      options.IsPathRoot t base root ∨ options.IsPatternRoot t base root := by
  rw [roots, IsPathRoot, IsPatternRoot]
  by_cases hnone : options.includes = []
  · simp [hnone]
  · rw [if_neg (by simpa using hnone)]
    simp only [List.flatMap_map, List.mem_flatMap, mem_includedBy_iff, hnone, false_and,
      false_or, and_or_left, exists_or]

/-- A path is reached from a root written in the options. -/
def ReachedByPath (options : ScanOptions) (t : FileTree) (base q : Path) : Prop :=
  ∃ root, options.IsPathRoot t base root ∧ .ok q ∈ t.walk root

/-- A path is reached from the match of an included pattern. -/
def ReachedByPattern (options : ScanOptions) (t : FileTree) (base q : Path) : Prop :=
  ∃ root, options.IsPatternRoot t base root ∧ .ok q ∈ t.walk root

/-- A path is kept if no ignored path leaves it out: it is a file with one of the extensions that no
ignored pattern covers. -/
structure Admits (options : ScanOptions) (t : FileTree) (q : Path) : Prop where
  isFile : t.isFile q = true
  hasExtension : hasExtension options.extensions q = true
  not_covered : ∀ g ∈ options.ignoredGlobs, g.accepts q.text = false

/-- A path is the same as one that is reached in a given way and admitted. -/
def Offers (options : ScanOptions) (t : FileTree) (reached : Path → Prop) (q : Path) : Prop :=
  ∃ r, r.sameAs q = true ∧ reached r ∧ options.Admits t r

/-! ### How paths that are reached begin -/

section Reached

variable {options : ScanOptions} {t : FileTree} {base q : Path}

/-- A path reached from a root that is written in the options goes on from the base directory. -/
theorem ReachedByPath.goesOn (hbase : base.text ≠ "") (h : options.ReachedByPath t base q) :
    GoesOn base q := by
  obtain ⟨root, hroot, hq⟩ := h
  have hgoes : GoesOn base root := by
    rcases hroot with ⟨-, rfl⟩ | ⟨text, -, -, rfl, -⟩
    · exact .refl hbase
    · exact goesOn_join hbase _
  exact hgoes.trans (FileTree.goesOn_of_mem_walk hgoes.text_ne_empty hq)

/-- A joined path has the wildcards of the second one. -/
theorem hasWildcard_join (base : Path) {text : String} (h : Glob.hasWildcard text = true) :
    Glob.hasWildcard (base.join ⟨text⟩).text = true := by
  rw [Glob.hasWildcard] at h
  rw [Path.join]
  split
  · exact h
  · split <;> simp [Glob.hasWildcard, String.toList_append, h]

/-- A path reached from the match of a pattern does not begin with a dot. -/
theorem ReachedByPattern.bare (hn : t.WellNamed)
    (hdots : ∀ text ∈ options.includes, Glob.hasWildcard text = true →
      Glob.sparesDots (base.join ⟨text⟩) = true)
    (h : options.ReachedByPattern t base q) : Bare q := by
  obtain ⟨root, ⟨text, hmem, hwild, found, hfound, hroot⟩, hq⟩ := h
  have hbare := Glob.bare_of_mem_expand hn (hasWildcard_join base hwild) (hdots text hmem hwild)
    hfound hroot
  exact hbare.goesOn (FileTree.goesOn_of_mem_walk hbare.text_ne_empty hq)

end Reached

/-- The ignored paths are the entries without wildcards, seen from the base directory. -/
theorem mem_ignoredPaths_iff (options : ScanOptions) (base dir : Path) :
    dir ∈ options.ignoredPaths base ↔
      ∃ text ∈ options.ignores, Glob.hasWildcard text = false ∧ base.join ⟨text⟩ = dir := by
  simp only [ignoredPaths, List.mem_map, List.mem_filter, Bool.not_eq_true', and_assoc]

end ScanOptions

namespace FileTree

open ScanOptions

variable (t : FileTree) (base : Path) (options : ScanOptions)

/-! ### The files of a scan -/

/-- The paths that a scan keeps, as it comes to them. -/
private def kept : List Path :=
  (((options.roots t base).1.flatMap t.walk).filterMap Except.toOption).filter fun p ↦
    !ignored (options.ignoredPaths base) options.ignoredGlobs p && t.isFile p &&
      hasExtension options.extensions p

private theorem mem_kept_iff (q : Path) : q ∈ kept t base options ↔
    (options.ReachedByPath t base q ∨ options.ReachedByPattern t base q) ∧
      options.Admits t q ∧ ∀ dir ∈ options.ignoredPaths base, q.startsWith dir = false := by
  have hok (r : Except WalkError Path) : r.toOption = some q ↔ r = .ok q := by
    cases r <;> simp [Except.toOption]
  have hreached : (∃ root ∈ (options.roots t base).1, .ok q ∈ t.walk root) ↔
      options.ReachedByPath t base q ∨ options.ReachedByPattern t base q := by
    simp only [mem_roots_iff, or_and_right, exists_or]
    rfl
  have hignored : ignored (options.ignoredPaths base) options.ignoredGlobs q = false ↔
      (∀ dir ∈ options.ignoredPaths base, q.startsWith dir = false) ∧
        ∀ g ∈ options.ignoredGlobs, g.accepts q.text = false := by
    simp [ignored]
  simp only [kept, List.mem_filter, List.mem_filterMap, hok, exists_eq_right, List.mem_flatMap,
    hreached, Bool.and_eq_true, Bool.not_eq_true', hignored]
  constructor
  · rintro ⟨hq, ⟨⟨hdirs, hglobs⟩, hfile⟩, hextension⟩
    exact ⟨hq, ⟨hfile, hextension, hglobs⟩, hdirs⟩
  · rintro ⟨hq, ⟨hfile, hextension, hglobs⟩, hdirs⟩
    exact ⟨hq, ⟨⟨hdirs, hglobs⟩, hfile⟩, hextension⟩

/-- A scan finds a path if one of its files is the same path. -/
def Finds (q : Path) : Prop :=
  ∃ r ∈ (t.scan base options).files, r.sameAs q = true

/-- A scan finds what it reaches and admits, unless an ignored path leaves it out. -/
theorem finds_iff (q : Path) : t.Finds base options q ↔
    (options.Offers t (options.ReachedByPath t base) q ∨
      options.Offers t (options.ReachedByPattern t base) q) ∧
    ∀ dir ∈ options.ignoredPaths base, q.startsWith dir = false := by
  show (∃ r ∈ sortPaths (kept t base options), r.sameAs q = true) ↔ _
  simp only [exists_mem_sortPaths_iff, mem_kept_iff, Offers, ← exists_or, ← and_or_left,
    ← or_and_right]
  constructor
  · rintro ⟨r, ⟨hreached, hadmits, hdirs⟩, hq⟩
    exact ⟨⟨r, hq, hreached, hadmits⟩, fun dir hdir ↦ startsWith_congr hq dir ▸ hdirs dir hdir⟩
  · rintro ⟨⟨r, hq, hreached, hadmits⟩, hdirs⟩
    refine ⟨r, ⟨hreached, hadmits, fun dir hdir ↦ ?_⟩, hq⟩
    exact (startsWith_congr hq dir).trans (hdirs dir hdir)

/-! ### Ignored paths -/

section Ignored

variable {t base options} {q dir : Path}

/-- What is offered by paths begins as the base directory does, or at the top. -/
theorem opening_of_offers (hbase : base.text ≠ "")
    (h : options.Offers t (options.ReachedByPath t base) q) :
    q.opening = base.opening ∨ q.opening = .top := by
  obtain ⟨r, hq, hreached, -⟩ := h
  rw [← opening_of_sameAs hq]
  exact (hreached.goesOn hbase).opening

/-- What is offered by patterns does not begin with a dot. -/
theorem opening_ne_of_offers (hn : t.WellNamed)
    (hdots : ∀ text ∈ options.includes, Glob.hasWildcard text = true →
      Glob.sparesDots (base.join ⟨text⟩) = true)
    (h : options.Offers t (options.ReachedByPattern t base) q) : q.opening ≠ .dot := by
  obtain ⟨r, hq, hreached, -⟩ := h
  rw [← opening_of_sameAs hq]
  exact (hreached.bare hn hdots).opening_ne

/-- An ignored path begins as the base directory does if it does not stand alone. -/
theorem opening_of_mem_ignoredPaths (hbase : base.text ≠ "")
    (hrelative : ∀ text ∈ options.ignores, (Path.mk text).isAbsolute = false)
    (hdir : dir ∈ options.ignoredPaths base) : dir.text ≠ "" ∧ dir.opening = base.opening := by
  obtain ⟨text, htext, -, rfl⟩ := (mem_ignoredPaths_iff options base dir).mp hdir
  exact ⟨text_join_ne_empty _ hbase, opening_join hbase (hrelative text htext)⟩

/-- Of what is at or below an ignored path a scan finds what patterns offer, where it begins
otherwise than the base directory, if no ignored path stands alone. -/
theorem finds_iff_of_relative (hbase : base.text ≠ "")
    (hrelative : ∀ text ∈ options.ignores, (Path.mk text).isAbsolute = false)
    (hdir : dir ∈ options.ignoredPaths base) (habs : q.isAbsolute = dir.isAbsolute)
    (hne : q.text ≠ "") (hstarts : q.startsWith dir = true ↔ q.opening = dir.opening) :
    t.Finds base options q ↔ q.opening ≠ base.opening ∧
      options.Offers t (options.ReachedByPattern t base) q := by
  have hopening := (opening_of_mem_ignoredPaths hbase hrelative hdir).2
  rw [finds_iff]
  constructor
  · rintro ⟨hoffers, hspared⟩
    have hdiffer : q.opening ≠ base.opening := by
      intro heq
      have := hstarts.mpr (heq.trans hopening.symm)
      rw [hspared dir hdir] at this
      cases this
    refine ⟨hdiffer, hoffers.resolve_left fun hpaths ↦ hdiffer ?_⟩
    refine (opening_of_offers hbase hpaths).elim id fun htop ↦ ?_
    -- From the top leads also the ignored path, and so the base directory.
    rw [opening_eq_top_iff, habs, ← opening_eq_top_iff, hopening] at htop
    rw [htop, opening_eq_top_iff, habs, ← opening_eq_top_iff, hopening, htop]
  · rintro ⟨hdiffer, hoffers⟩
    refine ⟨.inr hoffers, fun other hother ↦ ?_⟩
    obtain ⟨hother, heq⟩ := opening_of_mem_ignoredPaths hbase hrelative hother
    rw [Bool.eq_false_iff]
    intro hstarts
    exact hdiffer (((Path.startsWith_iff hne hother).mp hstarts).1.trans heq)

end Ignored

/-- What ignored paths leave out. A scan finds what paths and patterns offer unless it starts with
an ignored path. What is at or below an ignored path starts with that if both begin alike, wherever
the stem leads from which they go down. So if no ignored entry stands alone, ignored paths leave of
what is at or below them only what patterns offer where it begins otherwise than the base directory:
all of it if the base directory begins with a dot, and none if it does not, for no pattern offers a
path that begins with one unless its wildcards stand for dots. The empty path is no base
directory. -/
theorem scan_ignores_path (q : Path) :
    (t.Finds base options q ↔
      (options.Offers t (options.ReachedByPath t base) q ∨
        options.Offers t (options.ReachedByPattern t base) q) ∧
      ∀ dir ∈ options.ignoredPaths base, q.startsWith dir = false) ∧
    ∀ dir ∈ options.ignoredPaths base, ∀ stem, t.GoesDown stem q → t.GoesDown stem dir →
      t.AtOrBelow q dir →
      (q.startsWith dir = true ↔ q.opening = dir.opening) ∧
      (base.text ≠ "" → (∀ text ∈ options.ignores, (Path.mk text).isAbsolute = false) →
        (t.Finds base options q ↔ q.opening ≠ base.opening ∧
          options.Offers t (options.ReachedByPattern t base) q) ∧
        (t.WellNamed →
          (∀ text ∈ options.includes, Glob.hasWildcard text = true →
            Glob.sparesDots (base.join ⟨text⟩) = true) →
          (t.Finds base options q ↔ base.opening = .dot ∧
            options.Offers t (options.ReachedByPattern t base) q))) := by
  refine ⟨t.finds_iff base options q, fun dir hdir stem hq hdown hbelow ↦ ?_⟩
  have hstarts := hbelow.startsWith_iff hq hdown
  refine ⟨hstarts, fun hbase hrelative ↦ ?_⟩
  have habs : q.isAbsolute = dir.isAbsolute := hq.1.trans hdown.1.symm
  have hne : q.text ≠ "" := by
    obtain ⟨_, _, hlocate, -⟩ := hbelow
    exact text_ne_empty_of_locate hlocate
  have hfinds : t.Finds base options q ↔ _ :=
    finds_iff_of_relative hbase hrelative hdir habs hne hstarts
  refine ⟨hfinds, fun hn hdots ↦ ?_⟩
  rw [hfinds]
  refine and_congr_left fun hoffers ↦ ?_
  have hdot := opening_ne_of_offers hn hdots hoffers
  have htop : q.opening = .top ↔ base.opening = .top := by
    rw [opening_eq_top_iff, habs, ← opening_eq_top_iff,
      (opening_of_mem_ignoredPaths hbase hrelative hdir).2]
  cases hb : base.opening <;> cases hqo : q.opening <;> simp_all

/-- Under a base directory beside the working directory an ignored directory leaves out what a
pattern matches in it. -/
theorem scan_ignores_path_src :
    let t : FileTree := {
      entries := .ofList [(["home"], .directory), (["src"], .directory),
        (["src", "app.js"], .file .empty), (["src", "vendor"], .directory),
        (["src", "vendor", "lib.js"], .file .empty)],
      working := ["home"] }
    let base : Path := ⟨"../src"⟩
    let options : ScanOptions := ⟨["**/*.js"], ["vendor"], ["js"]⟩
    let q : Path := ⟨"../src/vendor/lib.js"⟩
    let dir : Path := ⟨"../src/vendor"⟩
    dir ∈ options.ignoredPaths base ∧ t.GoesDown base q ∧ t.GoesDown base dir ∧
      t.AtOrBelow q dir ∧ base.text ≠ "" ∧
      (∀ text ∈ options.ignores, (Path.mk text).isAbsolute = false) ∧ t.WellNamed ∧
      (∀ text ∈ options.includes, Glob.hasWildcard text = true →
        Glob.sparesDots (base.join ⟨text⟩) = true) ∧
      ¬ t.Finds base options q := by
  intro t base options q dir
  have hdir : dir ∈ options.ignoredPaths base := by decide +kernel
  have hq : t.GoesDown base q := ⟨by decide, ["src"], ["vendor", "lib.js"], by decide +kernel,
    by decide +kernel, by decide, by decide +kernel⟩
  have hdown : t.GoesDown base dir := ⟨by decide, ["src"], ["vendor"], by decide +kernel,
    by decide +kernel, by decide, by decide +kernel⟩
  have hbelow : t.AtOrBelow q dir := ⟨["src", "vendor", "lib.js"], ["src", "vendor"],
    by decide +kernel, by decide +kernel, by decide⟩
  have hbase : base.text ≠ "" := by decide
  have hrelative : ∀ text ∈ options.ignores, (Path.mk text).isAbsolute = false := by decide
  have hn : t.WellNamed := by decide +kernel
  have hdots : ∀ text ∈ options.includes, Glob.hasWildcard text = true →
      Glob.sparesDots (base.join ⟨text⟩) = true := by decide +kernel
  have hlaw := (scan_ignores_path t base options q).2 dir hdir base hq hdown hbelow
  refine ⟨hdir, hq, hdown, hbelow, hbase, hrelative, hn, hdots, fun hfinds ↦ ?_⟩
  have hdot := (((hlaw.2 hbase hrelative).2 hn hdots).mp hfinds).1
  revert hdot
  decide

/-- Under a dot a file in an ignored directory is found where a pattern matches it. -/
theorem scan_finds_in_ignored_directory :
    let t : FileTree := { entries := .ofList [(["app.js"], .file .empty), (["vendor"], .directory),
      (["vendor", "lib.js"], .file .empty)] }
    let base : Path := ⟨"."⟩
    let options : ScanOptions := ⟨["**/*.js"], ["vendor"], ["js"]⟩
    "vendor" ∈ options.ignores ∧ Glob.hasWildcard "vendor" = false ∧
      t.AtOrBelow ⟨"vendor/lib.js"⟩ (base.join ⟨"vendor"⟩) ∧
      (t.scan base options).files = [⟨"app.js"⟩, ⟨"vendor/lib.js"⟩] ∧
      (t.scan base { options with includes := [] }).files = [⟨"./app.js"⟩] := by
  intro t base options
  refine ⟨by decide, by decide, ⟨["vendor", "lib.js"], ["vendor"], ?_, ?_, by decide⟩, ?_, ?_⟩ <;>
    decide +kernel

end FileTree

end KeyHarvest
