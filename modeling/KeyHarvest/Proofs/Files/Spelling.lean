import KeyHarvest.Proofs.Files.Glob.Expand

/-!
# Spellings of paths

Two paths can have the same components and different texts, as `src/app` and `src/./app` have. A
walk lists each path under one text only, for it makes its paths from the root by adding names
(`eq_of_mem_walk`).
-/

namespace KeyHarvest

namespace Path

/-- The path of an entry has one name more than that of its directory. -/
theorem names_child {p : Path} (hp : p.text ≠ "") {name : String} (hname : NamesEntry name) :
    (p.child name).names = p.names ++ [name] := by
  obtain ⟨front, -, hfront, hjoin⟩ := hname.exists_pieces_child hp
  have hi : isIdle name = false := (isIdle_eq_false_iff name).mpr ⟨hname.1, hname.2.1⟩
  -- An empty piece at the end of the directory's path is no name.
  have hnames : p.names = namesIn front := by
    rcases hfront with h | h
    · rw [names, h]
    · rw [names, h, namesIn_append]
      exact List.append_nil _
  rw [names_of_pieces hjoin hi, hnames]

/-- The path of an entry has one component more than that of its directory. -/
theorem components_child {p : Path} (hp : p.text ≠ "") {name : String} (hname : NamesEntry name) :
    (p.child name).components = p.components ++ [.name name] := by
  obtain ⟨-, -, hup, hslash⟩ := id hname
  have hchild : (p.child name).text ≠ "" := text_join_ne_empty _ hp
  have hopening : (p.child name).opening = p.opening := opening_join hp (isAbsolute_of_name hslash)
  rw [components_eq_names hchild, components_eq_names hp, hopening, names_child hp hname,
    List.map_append, List.append_assoc, List.map_singleton, componentOf, if_neg hup]

/-- The path of an entry some directories further down. -/
def descend (p : Path) (names : Names) : Path :=
  names.foldl child p

/-- The path of an entry further down has the components of its directory and those of the names
between. -/
theorem components_descend {p : Path} (hp : p.text ≠ "") {names : Names}
    (hnames : ∀ name ∈ names, NamesEntry name) :
    (p.descend names).components = p.components ++ names.map .name := by
  induction names generalizing p with
  | nil => simp [descend]
  | cons name names ih =>
    obtain ⟨hname, hnames⟩ := List.forall_mem_cons.mp hnames
    have hchild : (p.child name).text ≠ "" := text_join_ne_empty _ hp
    show ((p.child name).descend names).components = _
    rw [ih hchild hnames, components_child hp hname, List.append_assoc, List.singleton_append,
      List.map_cons]

/-- Of the paths that go down from one path no two are the same. -/
theorem descend_inj {p : Path} (hp : p.text ≠ "") {names names' : Names}
    (hnames : ∀ name ∈ names, NamesEntry name) (hnames' : ∀ name ∈ names', NamesEntry name)
    (h : (p.descend names).sameAs (p.descend names') = true) : names = names' := by
  rw [sameAs_iff, components_descend hp hnames, components_descend hp hnames'] at h
  exact List.map_injective_iff.mpr (fun _ _ ↦ Component.name.inj) (List.append_cancel_left h)

end Path

namespace FileTree

open KeyHarvest.Path

variable {t : FileTree}

/-- What is listed below a path goes down from it. -/
theorem exists_of_mem_below (hn : t.WellNamed) {p q : Path} {depth : Nat}
    (h : .ok q ∈ t.below p depth) :
    ∃ down, (∀ name ∈ down, NamesEntry name) ∧ q = p.descend down := by
  induction depth generalizing p with
  | zero => cases h
  | succ depth ih =>
    rw [below] at h
    split at h
    · cases List.mem_singleton.mp h
    obtain ⟨name, hname, h⟩ := List.mem_flatMap.mp h
    obtain ⟨key, hkey, hlast⟩ := List.mem_filterMap.mp hname
    split at hlast
    · have hentry : NamesEntry name := hn key hkey name (List.mem_of_getLast? hlast)
      rcases List.mem_cons.mp h with heq | h
      · cases heq
        exact ⟨[name], List.forall_mem_singleton.mpr hentry, rfl⟩
      · split at h
        · obtain ⟨down, hdown, rfl⟩ := ih h
          exact ⟨name :: down, List.forall_mem_cons.mpr ⟨hentry, hdown⟩, rfl⟩
        · cases h
    · cases hlast

/-- What a walk lists goes down from where the walk begins. -/
theorem exists_of_mem_walk (hn : t.WellNamed) {root q : Path} (h : .ok q ∈ t.walk root) :
    root.text ≠ "" ∧ ∃ down, (∀ name ∈ down, NamesEntry name) ∧ q = root.descend down := by
  obtain ⟨⟨names, hlocate⟩, hq⟩ := cases_of_mem_walk h
  refine ⟨text_ne_empty_of_locate hlocate, ?_⟩
  rcases hq with rfl | hq
  · exact ⟨[], List.forall_mem_nil _, rfl⟩
  · exact exists_of_mem_below hn hq

/-- A walk lists a path under one text only. -/
theorem eq_of_mem_walk (hn : t.WellNamed) {root q r : Path} (hq : .ok q ∈ t.walk root)
    (hr : .ok r ∈ t.walk root) (h : q.sameAs r = true) : q = r := by
  obtain ⟨hroot, down, hdown, rfl⟩ := exists_of_mem_walk hn hq
  obtain ⟨-, down', hdown', rfl⟩ := exists_of_mem_walk hn hr
  rw [descend_inj hroot hdown hdown' h]

end FileTree

end KeyHarvest
