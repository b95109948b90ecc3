import KeyHarvest.Proofs.Files.Path
import KeyHarvest.Proofs.Files.Resolution
import KeyHarvest.Proofs.KeyMap
import Mathlib.Data.List.Induction
import Mathlib.Data.List.Infix

/-!
# Plain paths

A path is plain in a tree if it goes down only and no link stands on it. Such a path leads to the
names that it spells and nowhere else: through directories to the entry of its last name, if there
is one (`resolve_eq_ok_iff`). In a tree whose entries all stand in directories (`Rooted`) it leads
to that entry whatever else the tree holds (`leadsToEntry_iff`).
-/

namespace KeyHarvest

open KeyHarvest.Path

namespace FileTree

/-- Every entry stands in a directory, as everything below a directory does, and the working
directory is there. -/
structure Rooted (t : FileTree) : Prop where
  working : t.entry? t.working = some .directory
  above : ∀ names ∈ t.entries.keys, names ≠ [] ∧ t.entry? names.dropLast = some .directory

instance (t : FileTree) : Decidable t.Rooted :=
  decidable_of_iff (t.entry? t.working = some .directory ∧ ∀ names ∈ t.entries.keys,
    names ≠ [] ∧ t.entry? names.dropLast = some .directory)
    ⟨fun h ↦ ⟨h.1, h.2⟩, fun h ↦ ⟨h.working, h.above⟩⟩

/-- Paths lead from the same directory if both are absolute or neither is. -/
theorem origin_congr (t : FileTree) {p q : Path} (h : p.isAbsolute = q.isAbsolute) :
    t.origin p = t.origin q := by
  rw [origin, origin, Path.origin, Path.origin, h]

/-- The names that a path spells, from the root. -/
def spelled (t : FileTree) (p : Path) : Names :=
  t.origin p ++ p.names

/-- No link stands on the way along names, from a place to their end. -/
def Unlinked (t : FileTree) (here names : Names) : Prop :=
  ∀ q, q <+: names → ∀ target, t.entry? (here ++ q) ≠ some (.link target)

/-- No piece of the path leads up, and nothing on the way or at its end is a link. -/
structure Plain (t : FileTree) (p : Path) : Prop where
  not_up : ".." ∉ p.pieces
  unlinked : t.Unlinked (t.origin p) p.names

/-- Whether an entry is a link. -/
def isLink : Entry → Bool
  | .link _ => true
  | _ => false

/-- No link stands on the way along names if no entry along them is one. -/
theorem unlinked_iff (t : FileTree) (here names : Names) :
    (∀ q ∈ names.inits, (t.entry? (here ++ q)).any isLink = false) ↔ t.Unlinked here names := by
  have hlink (e : Option Entry) : e.any isLink = false ↔ ∀ target, e ≠ some (.link target) := by
    rcases e with _ | _ | _ | _ <;> simp [isLink]
  simp only [List.mem_inits, hlink, Unlinked]

instance (t : FileTree) (here names : Names) : Decidable (t.Unlinked here names) :=
  decidable_of_iff _ (unlinked_iff t here names)

instance (t : FileTree) (p : Path) : Decidable (t.Plain p) :=
  decidable_of_iff (".." ∉ p.pieces ∧ t.Unlinked (t.origin p) p.names)
    ⟨fun h ↦ ⟨h.1, h.2⟩, fun h ↦ ⟨h.not_up, h.unlinked⟩⟩

/-- No name is too long. -/
def Fits (names : Names) : Prop :=
  ∀ name ∈ names, name.utf8ByteSize ≤ maxName

instance (names : Names) : Decidable (Fits names) :=
  inferInstanceAs (Decidable (∀ name ∈ names, name.utf8ByteSize ≤ maxName))

/-- Names lead from a place through directories that may be entered. -/
def Directories (t : FileTree) (here names : Names) : Prop :=
  ∀ q, q <+: names → t.Enterable (here ++ q)

/-- The root is a directory. -/
@[simp] theorem entry?_nil (t : FileTree) : t.entry? [] = some .directory := rfl

/-- Under names other than those of the root stands what the entries say. -/
theorem entry?_of_ne_nil (t : FileTree) {names : Names} (h : names ≠ []) :
    t.entry? names = t.entries.get? names :=
  if_neg h

/-! ### Trees seen alike -/

/-- Two trees are seen from the same working directory, and the system refuses the same accesses in
both. -/
structure SeenAlike (t u : FileTree) : Prop where
  working : u.working = t.working
  refused : u.refused = t.refused

/-- A tree is seen as it is. -/
theorem SeenAlike.refl (t : FileTree) : t.SeenAlike t :=
  ⟨rfl, rfl⟩

section SeenAlike

variable {t u v : FileTree}

/-- Trees seen as a third one is are seen alike. -/
theorem SeenAlike.trans (h : t.SeenAlike u) (h' : u.SeenAlike v) : t.SeenAlike v :=
  ⟨h'.working.trans h.working, h'.refused.trans h.refused⟩

/-- An entry put in a tree does not change how it is seen. -/
theorem seenAlike_insert (t : FileTree) (names : Names) (e : Entry) :
    t.SeenAlike (t.insert names e) :=
  ⟨rfl, rfl⟩

/-- What is refused in one of two trees seen alike is refused in the other. -/
theorem SeenAlike.refusal? (h : t.SeenAlike u) (a : Access) (names : Names) :
    u.refusal? a names = t.refusal? a names := by
  rw [FileTree.refusal?, FileTree.refusal?, h.refused]

/-- A path leads from the same directory in trees seen alike. -/
theorem SeenAlike.origin (h : t.SeenAlike u) (p : Path) : u.origin p = t.origin p := by
  rw [FileTree.origin, FileTree.origin, h.working]

/-- A path spells the same names in trees seen alike. -/
theorem SeenAlike.spelled (h : t.SeenAlike u) (p : Path) : u.spelled p = t.spelled p := by
  rw [FileTree.spelled, FileTree.spelled, h.origin]

end SeenAlike

/-! ### Rooted trees -/

/-- An entry stands in a directory. -/
theorem Rooted.entry?_dropLast {t : FileTree} (hr : t.Rooted) {names : Names} {e : Entry}
    (hne : names ≠ []) (he : t.entry? names = some e) :
    t.entry? names.dropLast = some .directory := by
  rw [entry?_of_ne_nil t hne] at he
  have hc : t.entries.contains names = true := by rw [KeyMap.contains, he]; rfl
  exact (hr.above names ((KeyMap.mem_keys_iff _ _).mpr hc)).2

/-- What leads to an entry is a directory. -/
theorem Rooted.entry?_above {t : FileTree} (hr : t.Rooted) {names q : Names} {e : Entry}
    (he : t.entry? names = some e) (hq : q <+: names) (hne : q ≠ names) :
    t.entry? q = some .directory := by
  induction names using List.reverseRecOn generalizing e with
  | nil => exact absurd (List.prefix_nil.mp hq) hne
  | append_singleton init name ih =>
    have hinit := hr.entry?_dropLast (by simp) he
    rw [List.dropLast_concat] at hinit
    have hq' : q <+: init := (List.prefix_concat_iff.mp hq).resolve_left hne
    by_cases heq : q = init
    · rw [heq, hinit]
    · exact ih hinit hq' heq

/-- What leads to a directory, or is that directory, is a directory. -/
theorem Rooted.entry?_of_prefix {t : FileTree} (hr : t.Rooted) {names q : Names}
    (he : t.entry? names = some .directory) (hq : q <+: names) : t.entry? q = some .directory := by
  by_cases heq : q = names
  · rw [heq, he]
  · exact hr.entry?_above he hq heq

/-- A path leads from a directory. -/
theorem Rooted.entry?_origin {t : FileTree} (hr : t.Rooted) (p : Path) :
    t.entry? (t.origin p) = some .directory := by
  rw [FileTree.origin, Path.origin]
  split
  · rfl
  · exact hr.working

/-- Trees seen alike whose entries stand in directories are decided by what they have under all
names. -/
theorem Rooted.ext {t u : FileTree} (ht : t.Rooted) (hu : u.Rooted) (hseen : t.SeenAlike u)
    (h : ∀ names, t.entry? names = u.entry? names) : t = u := by
  have unbound {t : FileTree} (ht : t.Rooted) : t.entries.get? [] = none := by
    cases hg : t.entries.get? [] with
    | none => rfl
    | some e =>
      have hc : t.entries.contains [] = true := by rw [KeyMap.contains, hg]; rfl
      exact absurd rfl (ht.above [] ((KeyMap.mem_keys_iff _ _).mpr hc)).1
  have hentries : t.entries = u.entries := by
    apply KeyMap.ext_get?
    intro names
    by_cases hne : names = []
    · rw [hne, unbound ht, unbound hu]
    · rw [← entry?_of_ne_nil t hne, ← entry?_of_ne_nil u hne, h]
  obtain ⟨hworking, hrefused⟩ := hseen
  cases t
  cases u
  cases hentries
  cases hworking
  cases hrefused
  rfl

/-! ### Ways through directories -/

/-- No names lead through a directory that may be entered. -/
theorem directories_nil_iff (t : FileTree) (here : Names) :
    t.Directories here [] ↔ t.Enterable here := by
  simp [Directories, List.prefix_nil]

/-- What holds at each step along names holds at the first one, and at each step from the next
one on. -/
theorem forall_prefix_cons_iff {P : Names → Prop} (here : Names) (name : String) (rest : Names) :
    (∀ q, q <+: name :: rest → P (here ++ q)) ↔
      P here ∧ ∀ q, q <+: rest → P (here ++ [name] ++ q) := by
  constructor
  · intro h
    refine ⟨by simpa using h [] List.nil_prefix, fun q hq ↦ ?_⟩
    rw [List.append_assoc]
    exact h _ (List.cons_prefix_cons.mpr ⟨rfl, hq⟩)
  · rintro ⟨hhere, h⟩ q hq
    cases q with
    | nil => rwa [List.append_nil]
    | cons first q =>
      obtain ⟨rfl, hq'⟩ := List.cons_prefix_cons.mp hq
      have := h q hq'
      rwa [List.append_assoc] at this

/-- Names lead through directories if the place may be entered and the others lead on from the first
one. -/
theorem directories_cons_iff (t : FileTree) (here : Names) (name : String) (rest : Names) :
    t.Directories here (name :: rest) ↔ t.Enterable here ∧ t.Directories (here ++ [name]) rest :=
  forall_prefix_cons_iff (P := t.Enterable) here name rest

/-- The place from which names lead through directories may be entered. -/
theorem Directories.enterable {t : FileTree} {here names : Names} (h : t.Directories here names) :
    t.Enterable here := by
  simpa using h [] List.nil_prefix

section Steps

variable {t : FileTree} {follow : Bool} {through : Names → List String → Except FileError Place}
  {here : Names} {piece : String} {rest : List String}

/-- An idle piece leads on from where it stands. -/
theorem resolveWith_cons_of_idle (hdir : t.checkPiece here piece = .ok ())
    (hi : isIdle piece = true) : t.resolveWith follow through here (piece :: rest) =
      t.resolveWith follow through here rest := by
  rw [resolveWith, hdir]
  exact if_pos ((isIdle_eq_true_iff piece).mp hi)

/-- A name that is free ends the way. -/
theorem resolveWith_cons_of_none (hdir : t.checkPiece here piece = .ok ()) (hp : IsName piece)
    (he : t.entry? (here ++ [piece]) = none) :
    t.resolveWith follow through here (piece :: rest) =
      if rest = [] then .ok (.free (here ++ [piece])) else .error .notFound := by
  rw [resolveWith_cons_of_name hdir hp, he]

/-- A name of no link leads to its entry. -/
theorem resolveWith_cons_of_some (hdir : t.checkPiece here piece = .ok ()) (hp : IsName piece)
    {e : Entry} (he : t.entry? (here ++ [piece]) = some e) (hl : ∀ target, e ≠ .link target) :
    t.resolveWith follow through here (piece :: rest) =
      t.resolveWith follow through (here ++ [piece]) rest := by
  rw [resolveWith_cons_of_name hdir hp, he]
  cases e with
  | link target => exact absurd rfl (hl target)
  | file | directory => rfl

end Steps

/-- A piece that is neither idle nor leads up is a name, unless it is too long. -/
theorem isName_of_not_idle {piece : String} (hi : isIdle piece = false) (hup : piece ≠ "..")
    (hlong : piece.utf8ByteSize ≤ maxName) : IsName piece :=
  ⟨((isIdle_eq_false_iff piece).mp hi).1, ((isIdle_eq_false_iff piece).mp hi).2, hup, hlong⟩

section Pieces

variable {t : FileTree} {follow : Bool} {through : Names → List String → Except FileError Place}

/-- Pieces that lead through directories lead on from the last of them. -/
theorem resolveWith_append {here : Names} {pieces : List String} (hup : ".." ∉ pieces)
    (hfit : Fits (namesIn pieces)) (hd : t.Directories here (namesIn pieces))
    (rest : List String) : t.resolveWith follow through here (pieces ++ rest) =
      t.resolveWith follow through (here ++ namesIn pieces) rest := by
  induction pieces generalizing here with
  | nil => simp [namesIn]
  | cons piece pieces ih =>
    obtain ⟨hne, hup⟩ := not_or.mp (mt List.mem_cons.mpr hup)
    rw [List.cons_append]
    cases hi : isIdle piece with
    | true =>
      rw [namesIn_cons_of_idle hi] at hfit hd ⊢
      rw [resolveWith_cons_of_idle (hd.enterable.checkPiece _) hi, ih hup hfit hd]
    | false =>
      rw [namesIn_cons_of_name hi] at hfit hd ⊢
      rw [Fits, List.forall_mem_cons] at hfit
      rw [directories_cons_iff] at hd
      have hname := isName_of_not_idle hi (Ne.symm hne) hfit.1
      rw [resolveWith_cons_of_some (hd.1.checkPiece _) hname (Directories.enterable hd.2).1
          (by simp), ih hup hfit.2 hd.2, List.append_assoc, List.singleton_append]

/-- No link stands on the way along names if none stands where they begin or on the way of the
others from the first one. -/
theorem unlinked_cons_iff (t : FileTree) (here : Names) (name : String) (rest : Names) :
    t.Unlinked here (name :: rest) ↔
      (∀ target, t.entry? here ≠ some (.link target)) ∧ t.Unlinked (here ++ [name]) rest :=
  forall_prefix_cons_iff (P := fun names ↦ ∀ target, t.entry? names ≠ some (.link target)) here name
    rest

/-- A way without links begins at none. -/
theorem Unlinked.not_link {here names : Names} (h : t.Unlinked here names) (target : String) :
    t.entry? here ≠ some (.link target) := by
  simpa using h [] List.nil_prefix target

/-- The ways in which the first of some pieces leads on where none leads up and no link stands on
the way. -/
inductive LeadsDown (t : FileTree) (follow : Bool)
    (through : Names → List String → Except FileError Place) (here : Names) (piece : String)
    (pieces rest : List String) (place : Place) : Prop where
  | idle (hi : isIdle piece = true) (hlink : t.Unlinked here (namesIn pieces))
    (h : t.resolveWith follow through here (pieces ++ rest) = .ok place)
  | free (hr : pieces ++ rest = []) (h : place = .free (here ++ [piece]))
  | entry (hi : isIdle piece = false) (hlong : piece.utf8ByteSize ≤ maxName)
    (hlink : t.Unlinked (here ++ [piece]) (namesIn pieces))
    (h : t.resolveWith follow through (here ++ [piece]) (pieces ++ rest) = .ok place)

/-- Where none leads up and no link stands on the way, the first of some pieces leads down. -/
theorem leadsDown_of_resolveWith {here : Names} {piece : String} {pieces rest : List String}
    {place : Place} (hup : piece ≠ "..") (hlink : t.Unlinked here (namesIn (piece :: pieces)))
    (h : t.resolveWith follow through here (piece :: pieces ++ rest) = .ok place) :
    t.checkPiece here piece = .ok () ∧
      LeadsDown t follow through here piece pieces rest place := by
  obtain ⟨hdir, hleads⟩ := resolveWith_cons_eq_ok_iff.mp h
  refine ⟨hdir, ?_⟩
  have name (hp : IsName piece) : isIdle piece = false ∧
      t.Unlinked (here ++ [piece]) (namesIn pieces) := by
    have hi := (isIdle_eq_false_iff piece).mpr ⟨hp.1, hp.2.1⟩
    rw [namesIn_cons_of_name hi, unlinked_cons_iff] at hlink
    exact ⟨hi, hlink.2⟩
  cases hleads with
  | idle hp h =>
    have hi := (isIdle_eq_true_iff piece).mpr hp
    rw [namesIn_cons_of_idle hi] at hlink
    exact .idle hi hlink h
  | up hp _ => exact absurd hp hup
  | free _ _ hr h => exact .free hr h
  | link hp he _ _ => exact absurd he ((name hp).2.not_link _)
  | behindLink hp he _ _ _ => exact absurd he ((name hp).2.not_link _)
  | entry hp _ _ h => exact .entry (name hp).1 hp.2.2.2 (name hp).2 h

/-- Pieces with a name after them, or that lead to a directory that may be entered, lead through
directories. -/
theorem directories_of_resolveWith {here : Names} {pieces rest : List String} {place : Place}
    (hup : ".." ∉ pieces) (hlink : t.Unlinked here (namesIn pieces))
    (h : t.resolveWith follow through here (pieces ++ rest) = .ok place)
    (hend : (∃ next more, rest = next :: more ∧ next ≠ "") ∨
      ∃ names, rest = [] ∧ place = .found names ∧ t.Enterable names) :
    Fits (namesIn pieces) ∧ t.Directories here (namesIn pieces) := by
  induction pieces generalizing here with
  | nil =>
    refine ⟨by simp [Fits, namesIn], (directories_nil_iff t here).mpr ?_⟩
    rcases hend with ⟨next, more, rfl, hne⟩ | ⟨names, rfl, hplace, hnames⟩
    · exact enterable_of_checkPiece (resolveWith_cons_eq_ok_iff.mp h).1 hne
    · cases h
      cases hplace
      exact hnames
  | cons piece pieces ih =>
    obtain ⟨hne, hup⟩ := not_or.mp (mt List.mem_cons.mpr hup)
    obtain ⟨hdir, hleads⟩ := leadsDown_of_resolveWith (Ne.symm hne) hlink h
    cases hleads with
    | idle hi hlink h =>
      rw [namesIn_cons_of_idle hi]
      exact ih hup hlink h
    | free hr h =>
      obtain ⟨hpieces, hrest⟩ := List.append_eq_nil_iff.mp hr
      rcases hend with ⟨next, more, hmore, -⟩ | ⟨names, -, hplace, -⟩
      · rw [hrest] at hmore
        cases hmore
      · rw [h] at hplace
        cases hplace
    | entry hi hlong hlink h =>
      rw [namesIn_cons_of_name hi]
      obtain ⟨hfit, hd⟩ := ih hup hlink h
      have hhere := enterable_of_checkPiece hdir ((isIdle_eq_false_iff piece).mp hi).1
      exact ⟨List.forall_mem_cons.mpr ⟨hlong, hfit⟩, (directories_cons_iff ..).mpr ⟨hhere, hd⟩⟩

/-- Pieces that lead to an entry lead to their names. -/
theorem eq_of_resolveWith_found {here : Names} {pieces : List String} {names : Names}
    (hup : ".." ∉ pieces) (hlink : t.Unlinked here (namesIn pieces))
    (h : t.resolveWith follow through here pieces = .ok (.found names)) :
    names = here ++ namesIn pieces := by
  induction pieces generalizing here with
  | nil =>
    cases h
    exact (List.append_nil _).symm
  | cons piece pieces ih =>
    obtain ⟨hne, hup⟩ := not_or.mp (mt List.mem_cons.mpr hup)
    rw [← List.append_nil (piece :: pieces)] at h
    obtain ⟨-, hleads⟩ := leadsDown_of_resolveWith (Ne.symm hne) hlink h
    cases hleads with
    | idle hi hlink h =>
      rw [namesIn_cons_of_idle hi]
      exact ih hup hlink (List.append_nil pieces ▸ h)
    | free _ h => cases h
    | entry hi _ hlink h =>
      rw [namesIn_cons_of_name hi, ih hup hlink (List.append_nil pieces ▸ h), List.append_assoc,
        List.singleton_append]

/-- Pieces that end in an idle one lead to a directory if they lead anywhere and no link stands on
the way. -/
theorem exists_directory_of_idle {here : Names} {pieces : List String} {last : String}
    {place : Place} (hup : ".." ∉ pieces) (hlink : t.Unlinked here (namesIn pieces))
    (hi : isIdle last = true)
    (h : t.resolveWith follow through here (pieces ++ [last]) = .ok place) :
    ∃ names, place = .found names ∧ t.entry? names = some .directory := by
  induction pieces generalizing here with
  | nil =>
    have hdir := (resolveWith_cons_eq_ok_iff.mp h).1
    rw [List.nil_append, resolveWith_cons_of_idle hdir hi] at h
    cases h
    exact ⟨here, rfl, entry?_of_checkPiece hdir⟩
  | cons piece pieces ih =>
    obtain ⟨hne, hup⟩ := not_or.mp (mt List.mem_cons.mpr hup)
    obtain ⟨-, hleads⟩ := leadsDown_of_resolveWith (Ne.symm hne) hlink h
    cases hleads with
    | idle _ hlink h => exact ih hup hlink h
    | free hr _ => simp at hr
    | entry _ _ hlink h => exact ih hup hlink h

/-- Where a directory is missing on the way, pieces lead to no entry. -/
theorem resolveWith_of_missing (follow : Bool)
    (through : Names → List String → Except FileError Place) {here : Names} {pieces : List String}
    (hup : ".." ∉ pieces) (hfit : Fits (namesIn pieces)) (hdir : t.entry? here = some .directory)
    (hopen : ∀ q, q <+: namesIn pieces → t.refusal? .enter (here ++ q) = none ∧
      (t.entry? (here ++ q) = none ∨ t.entry? (here ++ q) = some .directory))
    (hd : ¬ t.Directories here (namesIn pieces)) :
    t.resolveWith follow through here pieces = .error .notFound ∨
      ∃ names, t.resolveWith follow through here pieces = .ok (.free names) := by
  induction pieces generalizing here with
  | nil =>
    refine absurd ((directories_nil_iff t here).mpr ⟨hdir, ?_⟩) hd
    simpa using (hopen [] List.nil_prefix).1
  | cons piece pieces ih =>
    obtain ⟨hne, hup⟩ := not_or.mp (mt List.mem_cons.mpr hup)
    have henter : t.Enterable here := ⟨hdir, by simpa using (hopen [] List.nil_prefix).1⟩
    cases hi : isIdle piece with
    | true =>
      rw [namesIn_cons_of_idle hi] at hfit hopen hd
      rw [resolveWith_cons_of_idle (henter.checkPiece _) hi]
      exact ih hup hfit hdir hopen hd
    | false =>
      rw [namesIn_cons_of_name hi] at hfit hopen hd
      rw [Fits, List.forall_mem_cons] at hfit
      have hname := isName_of_not_idle hi (Ne.symm hne) hfit.1
      rcases (hopen [piece] (List.cons_prefix_cons.mpr ⟨rfl, List.nil_prefix⟩)).2 with he | he
      · rw [resolveWith_cons_of_none (henter.checkPiece _) hname he]
        split
        · exact .inr ⟨_, rfl⟩
        · exact .inl rfl
      · rw [resolveWith_cons_of_some (henter.checkPiece _) hname he (by simp)]
        refine ih hup hfit.2 he (fun q hq ↦ ?_) fun hd' ↦ ?_
        · rw [List.append_assoc]
          exact hopen _ (List.cons_prefix_cons.mpr ⟨rfl, hq⟩)
        · exact hd ((directories_cons_iff ..).mpr ⟨henter, hd'⟩)

end Pieces

/-! ### Lookups -/

/-- A path leads to an entry under names. -/
def LeadsToEntry (t : FileTree) (p : Path) (names : Names) (e : Entry) : Prop :=
  t.resolve true p = .ok (.found names) ∧ t.entry? names = some e

/-- A path leads to names if it is resolved to them. -/
theorem locate_eq_ok_iff_resolve (t : FileTree) (p : Path) (names : Names) :
    t.locate true p = .ok names ↔ t.resolve true p = .ok (.found names) := by
  simp only [locate, bind_eq_ok_iff]
  constructor
  · rintro ⟨place, hplace, hfound⟩
    cases place with
    | free => cases hfound
    | found =>
      cases hfound
      exact hplace
  · intro hplace
    exact ⟨_, hplace, rfl⟩

/-- A lookup finds the entry to which the path leads. -/
theorem lookup_eq_ok_iff_leadsToEntry (t : FileTree) (p : Path) (e : Entry) :
    t.lookup p = .ok e ↔ ∃ names, t.LeadsToEntry p names e := by
  simp only [lookup, bind_eq_ok_iff, locate_eq_ok_iff_resolve, LeadsToEntry]
  refine exists_congr fun names ↦ and_congr_right fun _ ↦ ?_
  cases t.entry? names <;> simp

/-- A path leads to one entry at most. -/
theorem LeadsToEntry.unique {t : FileTree} {p : Path} {names names' : Names} {e e' : Entry}
    (h : t.LeadsToEntry p names e) (h' : t.LeadsToEntry p names' e') : names = names' ∧ e = e' := by
  obtain ⟨hplace, he⟩ := h
  obtain ⟨hplace', he'⟩ := h'
  rw [hplace] at hplace'
  cases hplace'
  exact ⟨rfl, Option.some.inj (he.symm.trans he')⟩

/-- A path exists if it leads to an entry. -/
theorem pathExists_iff (t : FileTree) (p : Path) :
    t.pathExists p = true ↔ ∃ names e, t.LeadsToEntry p names e := by
  have hlookup : t.pathExists p = true ↔ ∃ e, t.lookup p = .ok e := by
    rw [pathExists]
    cases t.lookup p <;> simp
  simp only [hlookup, lookup_eq_ok_iff_leadsToEntry]
  exact exists_comm

/-- A path leads to a directory if a lookup finds one. -/
theorem isDirectory_iff_lookup (t : FileTree) (p : Path) :
    t.isDirectory p = true ↔ t.lookup p = .ok .directory := by
  rw [isDirectory]
  constructor
  · intro h
    split at h
    · assumption
    · cases h
  · intro h
    rw [h]

/-! ### Paths -/

/-- The pieces of a path are resolved through some number of links. -/
theorem resolve_eq (t : FileTree) (follow : Bool) (p : Path) :
    t.resolve follow p = (checkPath p >>= fun _ ↦
      t.resolveWith follow (t.resolvePieces follow 39) (t.origin p) p.pieces) := rfl

/-- A path leads to an entry if it can be looked up and its pieces lead there. -/
theorem locate_eq_ok_iff (t : FileTree) (follow : Bool) (p : Path) (names : Names) :
    t.locate follow p = .ok names ↔ checkPath p = .ok () ∧
      t.resolveWith follow (t.resolvePieces follow 39) (t.origin p) p.pieces =
        .ok (.found names) := by
  simp only [locate, resolve_eq, bind_eq_ok_iff]
  constructor
  · rintro ⟨place, ⟨_, hcheck, hplace⟩, hfound⟩
    cases place with
    | free => cases hfound
    | found =>
      cases hfound
      exact ⟨hcheck, hplace⟩
  · rintro ⟨hcheck, hplace⟩
    exact ⟨_, ⟨_, hcheck, hplace⟩, rfl⟩

section Path

variable {t : FileTree} {p : Path} {above : List String} {name : String}

/-- The names that a path that ends in a name spells. -/
theorem spelled_of_pieces (t : FileTree) (hpieces : p.pieces = above ++ [name])
    (hn : isIdle name = false) : t.spelled p = t.origin p ++ namesIn above ++ [name] := by
  rw [spelled, names_of_pieces hpieces hn, List.append_assoc]

/-- On the way of a plain path to its last name stands no link. -/
theorem Plain.unlinked_above (hp : t.Plain p) (hpieces : p.pieces = above ++ [name])
    (hn : isIdle name = false) : t.Unlinked (t.origin p) (namesIn above) :=
  fun q hq ↦ hp.unlinked q (hq.trans (namesIn_prefix_names hpieces hn))

/-- What a plain path spells is no link. -/
theorem Plain.not_link (hp : t.Plain p) (target : String) :
    t.entry? (t.spelled p) ≠ some (.link target) :=
  hp.unlinked p.names List.prefix_rfl target

/-- Neither the last piece of a plain path nor one before it leads up. -/
theorem Plain.not_up_above (hp : t.Plain p) (hpieces : p.pieces = above ++ [name]) :
    ".." ∉ above ∧ name ≠ ".." := by
  have h := hp.not_up
  rw [hpieces, List.mem_append, List.mem_singleton, not_or] at h
  exact ⟨h.1, Ne.symm h.2⟩

/-- The last name of a plain path leads to the entry of its names, or to their free place. -/
theorem Plain.resolveWith_last (hp : t.Plain p) (hpieces : p.pieces = above ++ [name])
    (hn : isIdle name = false) {through : Names → List String → Except FileError Place}
    (hd : t.Enterable (t.origin p ++ namesIn above)) (hlong : name.utf8ByteSize ≤ maxName) :
    t.resolveWith true through (t.origin p ++ namesIn above) [name] =
      .ok (if (t.entry? (t.spelled p)).isSome then .found (t.spelled p)
        else .free (t.spelled p)) := by
  have hisName := isName_of_not_idle hn (hp.not_up_above hpieces).2 hlong
  have hlink := hp.not_link
  rw [spelled_of_pieces t hpieces hn] at hlink ⊢
  cases he : t.entry? (t.origin p ++ namesIn above ++ [name]) with
  | none =>
    rw [resolveWith_cons_of_none (hd.checkPiece _) hisName he]
    rfl
  | some e =>
    have hl (target : String) : e ≠ .link target := fun heq ↦ hlink target (heq ▸ he)
    rw [resolveWith_cons_of_some (hd.checkPiece _) hisName he hl]
    rfl

/-- A plain path that ends in a name leads through directories to the entry of its names, or to
their free place. -/
theorem resolve_eq_ok_iff (hp : t.Plain p) (hpieces : p.pieces = above ++ [name])
    (hn : isIdle name = false) (place : Place) :
    t.resolve true p = .ok place ↔ checkPath p = .ok () ∧ Fits p.names ∧
      t.Directories (t.origin p) (namesIn above) ∧
      place = if (t.entry? (t.spelled p)).isSome then .found (t.spelled p)
        else .free (t.spelled p) := by
  obtain ⟨hup, hname⟩ := hp.not_up_above hpieces
  have hfits : Fits p.names ↔ Fits (namesIn above) ∧ name.utf8ByteSize ≤ maxName := by
    simp [Fits, names_of_pieces hpieces hn, or_imp, forall_and]
  rw [resolve_eq, bind_eq_ok_iff, hpieces]
  constructor
  · rintro ⟨⟨⟩, hcheck, h⟩
    have hnext : ∃ next more, [name] = next :: more ∧ next ≠ "" :=
      ⟨name, [], rfl, ((isIdle_eq_false_iff name).mp hn).1⟩
    obtain ⟨hfit, hd⟩ := directories_of_resolveWith hup (hp.unlinked_above hpieces hn) h
      (.inl hnext)
    rw [resolveWith_append hup hfit hd] at h
    have hend : t.Enterable (t.origin p ++ namesIn above) := hd _ List.prefix_rfl
    obtain ⟨-, hleads⟩ := resolveWith_cons_eq_ok_iff.mp h
    have hlong : name.utf8ByteSize ≤ maxName := by
      cases hleads with
      | idle hi _ => exact absurd ((isIdle_eq_true_iff name).mpr hi) (by simp [hn])
      | up hi _ => exact absurd hi hname
      | free hi | link hi | behindLink hi | entry hi => exact hi.2.2.2
    rw [hp.resolveWith_last hpieces hn hend hlong] at h
    cases h
    exact ⟨hcheck, hfits.mpr ⟨hfit, hlong⟩, hd, rfl⟩
  · rintro ⟨hcheck, hfit, hd, rfl⟩
    obtain ⟨hfit, hlong⟩ := hfits.mp hfit
    refine ⟨(), hcheck, ?_⟩
    rw [resolveWith_append hup hfit hd,
      hp.resolveWith_last hpieces hn (hd _ List.prefix_rfl) hlong]

/-- A plain path that ends in a name leads to the entry of its names, behind directories that may be
entered. -/
theorem leadsToEntry_iff_directories (hp : t.Plain p) (hpieces : p.pieces = above ++ [name])
    (hn : isIdle name = false) (names : Names) (e : Entry) : t.LeadsToEntry p names e ↔
      names = t.spelled p ∧ checkPath p = .ok () ∧ Fits p.names ∧
        t.Directories (t.origin p) (namesIn above) ∧ t.entry? (t.spelled p) = some e := by
  constructor
  · rintro ⟨hplace, he⟩
    obtain ⟨hcheck, hfit, hd, hfound⟩ := (resolve_eq_ok_iff hp hpieces hn _).mp hplace
    split at hfound
    · cases hfound
      exact ⟨rfl, hcheck, hfit, hd, he⟩
    · cases hfound
  · rintro ⟨rfl, hcheck, hfit, hd, he⟩
    refine ⟨(resolve_eq_ok_iff hp hpieces hn _).mpr ⟨hcheck, hfit, hd, ?_⟩, he⟩
    rw [he]
    rfl

/-- The directories on the way along names may be entered, the last one apart. -/
def Passes (t : FileTree) (here names : Names) : Prop :=
  ∀ q, q <+: names → q ≠ names → t.refusal? .enter (here ++ q) = none

/-- In a rooted tree a plain path that ends in a name leads to the entry of its names, if the
directories on the way may be entered. -/
theorem leadsToEntry_iff (hr : t.Rooted) (hp : t.Plain p) (hpieces : p.pieces = above ++ [name])
    (hn : isIdle name = false) (names : Names) (e : Entry) : t.LeadsToEntry p names e ↔
      names = t.spelled p ∧ checkPath p = .ok () ∧ Fits p.names ∧
        t.Passes (t.origin p) p.names ∧ t.entry? (t.spelled p) = some e := by
  rw [leadsToEntry_iff_directories hp hpieces hn]
  refine and_congr_right fun _ ↦ and_congr_right fun _ ↦ and_congr_right fun _ ↦
    and_congr_left fun he ↦ ?_
  have hnames := names_of_pieces hpieces hn
  constructor
  · intro hd q hq hne
    rw [hnames] at hq hne
    exact (hd q ((List.prefix_concat_iff.mp hq).resolve_left hne)).2
  · intro hpasses q hq
    have hstart : q <+: p.names := hq.trans (namesIn_prefix_names hpieces hn)
    have hne : q ≠ p.names := fun heq ↦ not_prefix_of_pieces hpieces hn (heq ▸ hq)
    refine ⟨hr.entry?_above he ((List.prefix_append_right_inj _).mpr hstart) fun heq ↦ ?_,
      hpasses q hstart hne⟩
    exact hne (List.append_cancel_left heq)

/-- A plain path that ends in a name leads to a directory if its names do, through directories that
may be entered. -/
theorem isDirectory_iff (hp : t.Plain p) (hpieces : p.pieces = above ++ [name])
    (hn : isIdle name = false) : t.isDirectory p = true ↔ checkPath p = .ok () ∧ Fits p.names ∧
      t.Directories (t.origin p) (namesIn above) ∧ t.entry? (t.spelled p) = some .directory := by
  rw [isDirectory_iff_lookup, lookup_eq_ok_iff_leadsToEntry]
  simp only [leadsToEntry_iff_directories hp hpieces hn, exists_eq_left]

end Path

end FileTree

end KeyHarvest
