import KeyHarvest.Proofs.Files.Writing

/-!
# Directories made on the way

Making a directory with those above it puts a directory wherever one is missing on the way and
changes nothing else (`directoriesMade_of_eq_none`). It succeeds as soon as nothing but directories
stands there already, those that are there may be entered, and those that are missing may be made
(`exists_makeDirectoriesFrom_of_isOpen`). What is true of a tree and stays true whenever a directory
is put in a free place is true also after it fails (`makeDirectoriesFrom_induction`).
-/

namespace KeyHarvest.FileTree

open KeyHarvest.Path

/-- A directory stands under names, or one may be made there. -/
def Makeable (t : FileTree) (names : Names) : Prop :=
  t.entry? names = some .directory ∨ t.entry? names = none ∧ t.refusal? .write names = none

/-- A directory under names may be entered, once it has been made. -/
def Passable (t : FileTree) (names : Names) : Prop :=
  t.Makeable names ∧ t.refusal? .enter names = none

/-- The way along names from a place is open: on it stands nothing but directories, and those that
are missing may be made. -/
def IsOpen (t : FileTree) (here names : Names) : Prop :=
  ∀ q, q <+: names → t.Passable (here ++ q)

/-- Directories have been made along names from a place, where they could be; all else is as it
was. -/
structure DirectoriesMade (t t' : FileTree) (here names : Names) : Prop where
  fits : Fits names
  way : ∀ q, q <+: names → q ≠ names → t.Passable (here ++ q)
  last : t.Makeable (here ++ names)
  seenAlike : t.SeenAlike t'
  entry? : ∀ q, t'.entry? q = if q <+: here ++ names then some .directory else t.entry? q

/-- An entry put in a directory where no directory stands leaves a rooted tree rooted. -/
theorem Rooted.insert {t : FileTree} (hr : t.Rooted) {names : Names} (hne : names ≠ [])
    (hdir : t.entry? names.dropLast = some .directory) (e : Entry)
    (hkeep : ∀ old, t.entry? names = some old → old ≠ .directory) :
    (FileTree.insert t names e).Rooted := by
  have hdirectory {other : Names} (h : t.entry? other = some .directory) :
      FileTree.entry? (FileTree.insert t names e) other = some .directory := by
    rw [entry?_insert t hne, if_neg ?_, h]
    exact fun heq ↦ hkeep _ (heq ▸ h) rfl
  refine ⟨hdirectory hr.working, fun other hother ↦ ?_⟩
  have hold : other = names ∨ other ∈ t.entries.keys := by
    rw [KeyMap.mem_keys_iff, KeyMap.contains, FileTree.insert, KeyMap.get?_insert] at hother
    by_cases h : names = other
    · exact .inl h.symm
    · rw [if_neg h] at hother
      exact .inr ((KeyMap.mem_keys_iff _ _).mpr hother)
  rcases hold with rfl | hmem
  · exact ⟨hne, hdirectory hdir⟩
  · exact ⟨(hr.above other hmem).1, hdirectory (hr.above other hmem).2⟩

/-! ### One directory -/

/-- What making a directory changes: a free name in a directory becomes one. -/
theorem makeDirectory_eq_ok {t t' : FileTree} {p : Path} (h : t.makeDirectory p = .ok t') :
    ∃ names, t.IsFree names ∧ t.entry? names.dropLast = some .directory ∧
      t' = t.insert names .directory := by
  simp only [makeDirectory, bind_eq_ok_iff] at h
  obtain ⟨_, -, above, habove, h⟩ := h
  simp only [checkAbove, bind_eq_ok_iff] at habove
  obtain ⟨place, -, habove⟩ := habove
  have hdir : t.entry? above = some .directory := by
    cases place with
    | free => cases habove
    | found =>
      simp only at habove
      split at habove
      · next hdir =>
        rw [bind_eq_ok_iff] at habove
        obtain ⟨_, -, habove⟩ := habove
        cases habove
        exact hdir
      · cases habove
  split at h
  · cases h
  split at h
  · cases h
  split at h
  · cases h
  next hfree =>
  rw [bind_eq_ok_iff] at h
  obtain ⟨_, -, h⟩ := h
  cases h
  refine ⟨above ++ [(splitLast p).2], ⟨by simp, by simpa using hfree⟩, ?_, rfl⟩
  rwa [List.dropLast_concat]

section Path

variable {t t' : FileTree} {p : Path} {above : List String} {name : String}

/-- The last piece of a path that ends in a name is that name. -/
theorem splitLast_of_pieces (hpieces : p.pieces = above ++ [name]) (hn : isIdle name = false) :
    splitLast p = (above, name) := by
  have hname : (name == "") = false := by simpa using ((isIdle_eq_false_iff name).mp hn).1
  simp [splitLast, hpieces, hname]

/-- What stands before the last name of a plain path is found through directories that may be
entered. -/
theorem checkAbove_eq_ok_iff (hp : t.Plain p) (hpieces : p.pieces = above ++ [name])
    (hn : isIdle name = false) (names : Names) : t.checkAbove p = .ok names ↔
      Fits (namesIn above) ∧ t.Directories (t.origin p) (namesIn above) ∧
        names = t.origin p ++ namesIn above := by
  have hup := (hp.not_up_above hpieces).1
  have hlinks : t.resolvePieces true maxLinks (t.origin p) above =
      t.resolveWith true (t.resolvePieces true 39) (t.origin p) (above ++ []) := by
    rw [List.append_nil]
    rfl
  simp only [checkAbove, splitLast_of_pieces hpieces hn, hlinks, bind_eq_ok_iff]
  constructor
  · rintro ⟨place, hplace, h⟩
    cases place with
    | free => cases h
    | found found =>
      simp only at h
      split at h
      · next hdir =>
        rw [bind_eq_ok_iff] at h
        obtain ⟨⟨⟩, haccess, h⟩ := h
        cases h
        obtain ⟨hfit, hd⟩ := directories_of_resolveWith hup (hp.unlinked_above hpieces hn) hplace
          (.inr ⟨_, rfl, rfl, hdir, checkAccess_eq_ok_iff.mp haccess⟩)
        rw [resolveWith_append hup hfit hd] at hplace
        cases hplace
        exact ⟨hfit, hd, rfl⟩
      · cases h
  · rintro ⟨hfit, hd, rfl⟩
    obtain ⟨hdir, henter⟩ := hd _ List.prefix_rfl
    refine ⟨.found (t.origin p ++ namesIn above), ?_, ?_⟩
    · rw [resolveWith_append hup hfit hd]
      rfl
    · simp only [if_pos hdir, checkAccess_of_none henter]
      rfl

/-- Where a directory is missing on the way, none is made. -/
theorem makeDirectory_of_missing (hr : t.Rooted) (hp : t.Plain p)
    (hpieces : p.pieces = above ++ [name]) (hn : isIdle name = false)
    (hcheck : checkPath p = .ok ()) (hfit : Fits p.names)
    (hopen : t.IsOpen (t.origin p) p.names)
    (hd : ¬ t.Directories (t.origin p) (namesIn above)) :
    t.makeDirectory p = .error .notFound := by
  have habove := namesIn_prefix_names hpieces hn
  have hmissing : t.checkAbove p = .error .notFound := by
    simp only [checkAbove, splitLast_of_pieces hpieces hn]
    show (t.resolveWith true (t.resolvePieces true 39) (t.origin p) above >>= _) = _
    have hresolve := resolveWith_of_missing true (t.resolvePieces true 39)
      (hp.not_up_above hpieces).1 (fun s hs ↦ hfit s (habove.subset hs)) (hr.entry?_origin p)
      (fun q hq ↦ ⟨(hopen q (hq.trans habove)).2,
        (hopen q (hq.trans habove)).1.symm.imp_left And.left⟩) hd
    rcases hresolve with h | ⟨names, h⟩
    · rw [h]
      rfl
    · rw [h]
      rfl
  rw [makeDirectory, hcheck, ok_bind, hmissing]
  rfl

/-- Behind directories a directory is made unless something stands in its place or it may not be
made. -/
theorem makeDirectory_of_directories (hp : t.Plain p) (hpieces : p.pieces = above ++ [name])
    (hn : isIdle name = false) (hcheck : checkPath p = .ok ()) (hfit : Fits p.names)
    (hd : t.Directories (t.origin p) (namesIn above)) : t.makeDirectory p =
      if (t.entry? (t.spelled p)).isSome then .error .alreadyExists
      else t.checkAccess .write (t.spelled p) >>= fun _ ↦
        .ok (t.insert (t.spelled p) .directory) := by
  have hfits : Fits (namesIn above) ∧ name.utf8ByteSize ≤ maxName := by
    simpa [Fits, names_of_pieces hpieces hn, or_imp, forall_and] using hfit
  have habove := (checkAbove_eq_ok_iff hp hpieces hn _).mpr ⟨hfits.1, hd, rfl⟩
  have hlast : ¬ (name = "." ∨ name = ".." ∨ name = "") := by
    have hi := (isIdle_eq_false_iff name).mp hn
    rintro (h | h | h)
    · exact hi.2 h
    · exact (hp.not_up_above hpieces).2 h
    · exact hi.1 h
  rw [makeDirectory, hcheck, ok_bind, habove, ok_bind, splitLast_of_pieces hpieces hn]
  simp only
  rw [if_neg hlast, if_neg (Nat.not_lt.mpr hfits.2), ← spelled_of_pieces t hpieces hn]

/-- A plain path at which a directory is made ends behind directories. -/
theorem directories_of_makeDirectory (hp : t.Plain p) (hpieces : p.pieces = above ++ [name])
    (hn : isIdle name = false) (h : t.makeDirectory p = .ok t') :
    Fits p.names ∧ t.Directories (t.origin p) (namesIn above) := by
  simp only [makeDirectory, bind_eq_ok_iff] at h
  obtain ⟨_, -, names, habove, h⟩ := h
  obtain ⟨hfit, hd, -⟩ := (checkAbove_eq_ok_iff hp hpieces hn _).mp habove
  rw [splitLast_of_pieces hpieces hn] at h
  simp only at h
  split at h
  · cases h
  split at h
  · cases h
  next hlong =>
  refine ⟨?_, hd⟩
  rw [names_of_pieces hpieces hn]
  intro s hs
  rcases List.mem_append.mp hs with hs | hs
  · exact hfit s hs
  · rw [List.mem_singleton.mp hs]
    exact Nat.not_lt.mp hlong

end Path

/-! ### What directories made change -/

section Made

variable {t u t' : FileTree} {here above names : Names}

/-- A directory that may be entered is passed. -/
theorem Enterable.passable (h : t.Enterable names) : t.Passable names :=
  ⟨.inl h.1, h.2⟩

/-- Where there are directories already, none is made. -/
theorem directoriesMade_self (hr : t.Rooted) (hfit : Fits names)
    (hway : ∀ q, q <+: names → q ≠ names → t.Enterable (here ++ q))
    (hlast : t.entry? (here ++ names) = some .directory) :
    t.DirectoriesMade t here names := by
  refine ⟨hfit, fun q hq hne ↦ (hway q hq hne).passable, .inl hlast, .refl t, fun q ↦ ?_⟩
  split
  · next hq => exact hr.entry?_of_prefix hlast hq
  · rfl

/-- Behind directories one is made in a free place. -/
theorem directoriesMade_insert (hr : t.Rooted) {name : String} (hfit : Fits (above ++ [name]))
    (hd : t.Directories here above) (hfree : t.entry? (here ++ (above ++ [name])) = none)
    (hwrite : t.refusal? .write (here ++ (above ++ [name])) = none) :
    t.DirectoriesMade (t.insert (here ++ (above ++ [name])) .directory) here
      (above ++ [name]) := by
  refine ⟨hfit, fun q hq hne ↦ ?_, .inr ⟨hfree, hwrite⟩, seenAlike_insert _ _ _, fun q ↦ ?_⟩
  · exact (hd q ((List.prefix_concat_iff.mp hq).resolve_left hne)).passable
  · rw [entry?_insert t (by simp)]
    by_cases heq : here ++ (above ++ [name]) = q
    · rw [if_pos heq, heq, if_pos List.prefix_rfl]
    · rw [if_neg heq]
      split
      · next hq =>
        rw [← List.append_assoc] at hq heq
        have hstart := (List.prefix_concat_iff.mp hq).resolve_left (Ne.symm heq)
        exact hr.entry?_of_prefix (hd _ List.prefix_rfl).1 hstart
      · rfl

/-- Directories made along the first names and then along all of them are made along all of them. -/
theorem DirectoriesMade.trans (h : t.DirectoriesMade u here above)
    (h' : u.DirectoriesMade t' here names) (habove : above <+: names) :
    t.DirectoriesMade t' here names := by
  have hmakeable {q : Names} (hq : ¬ q <+: above) (hu : u.Makeable (here ++ q)) :
      t.Makeable (here ++ q) := by
    rwa [Makeable, h.entry?, if_neg (by rwa [List.prefix_append_right_inj]),
      h.seenAlike.refusal?] at hu
  refine ⟨h'.fits, fun q hq hne ↦ ?_, ?_, h.seenAlike.trans h'.seenAlike, fun q ↦ ?_⟩
  · have hu := h'.way q hq hne
    have henter : t.refusal? .enter (here ++ q) = none := by
      rw [← h.seenAlike.refusal?]
      exact hu.2
    by_cases hqa : q <+: above
    · by_cases heq : q = above
      · exact ⟨heq ▸ h.last, henter⟩
      · exact h.way q hqa heq
    · exact ⟨hmakeable hqa hu.1, henter⟩
  · by_cases hqa : names <+: above
    · rw [← habove.eq_of_length_le hqa.length_le]
      exact h.last
    · exact hmakeable hqa h'.last
  · rw [h'.entry?]
    split
    · rfl
    · next hq =>
      rw [h.entry?, if_neg fun hqa ↦ hq (hqa.trans ((List.prefix_append_right_inj _).mpr habove))]

end Made

/-! ### One attempt -/

/-- Make a directory, or find that it is there. -/
def attempt (t : FileTree) (p : Path) : FileTree × Option FileError :=
  match t.makeDirectory p with
  | .ok t => (t, none)
  | .error e => (t, if t.isDirectory p then none else some e)

/-- An attempt puts a directory in a free place or changes nothing. -/
theorem attempt_induction {P : FileTree → Prop}
    (hP : ∀ t names, P t → t.IsFree names → t.entry? names.dropLast = some .directory →
      P (t.insert names .directory)) {t : FileTree} (ht : P t) (p : Path) :
    P (t.attempt p).1 := by
  rw [attempt]
  split
  · next hmake =>
    obtain ⟨names, hfree, hdir, rfl⟩ := makeDirectory_eq_ok hmake
    exact hP t names ht hfree hdir
  · exact ht

section Attempt

variable {t t' : FileTree} {p : Path} {above : List String} {name : String}

/-- What an attempt that succeeds has found and changed. -/
theorem directoriesMade_of_attempt (hr : t.Rooted) (hp : t.Plain p)
    (hpieces : p.pieces = above ++ [name]) (hn : isIdle name = false)
    (hcheck : checkPath p = .ok ()) (h : t.attempt p = (t', none)) :
    t.DirectoriesMade t' (t.origin p) p.names := by
  have hnames := names_of_pieces hpieces hn
  rw [attempt] at h
  split at h
  · next made hmake =>
    cases h
    obtain ⟨hfit, hd⟩ := directories_of_makeDirectory hp hpieces hn hmake
    rw [makeDirectory_of_directories hp hpieces hn hcheck hfit hd] at hmake
    split at hmake
    · cases hmake
    next hfree =>
    rw [bind_eq_ok_iff] at hmake
    obtain ⟨⟨⟩, haccess, hmake⟩ := hmake
    cases hmake
    have hwrite := checkAccess_eq_ok_iff.mp haccess
    rw [Option.not_isSome_iff_eq_none] at hfree
    rw [spelled, hnames] at hfree hwrite ⊢
    rw [hnames] at hfit
    exact directoriesMade_insert hr hfit hd hfree hwrite
  · split at h
    · next hdir =>
      cases h
      obtain ⟨-, hfit, hd, hlast⟩ := (isDirectory_iff hp hpieces hn).mp hdir
      refine directoriesMade_self hr hfit (fun q hq hne ↦ ?_) hlast
      rw [hnames] at hq hne
      exact hd q ((List.prefix_concat_iff.mp hq).resolve_left hne)
    · cases h

/-- Behind directories an attempt succeeds where a directory stands or may be made. -/
theorem exists_attempt_of_directories (hp : t.Plain p) (hpieces : p.pieces = above ++ [name])
    (hn : isIdle name = false) (hcheck : checkPath p = .ok ()) (hfit : Fits p.names)
    (hd : t.Directories (t.origin p) (namesIn above)) (hplace : t.Makeable (t.spelled p)) :
    ∃ t', t.attempt p = (t', none) := by
  have hmake := makeDirectory_of_directories hp hpieces hn hcheck hfit hd
  rcases hplace with hplace | ⟨hplace, hwrite⟩
  · have hdir : t.isDirectory p = true :=
      (isDirectory_iff hp hpieces hn).mpr ⟨hcheck, hfit, hd, hplace⟩
    refine ⟨t, ?_⟩
    rw [hplace] at hmake
    rw [attempt, hmake]
    simp [hdir]
  · refine ⟨t.insert (t.spelled p) .directory, ?_⟩
    rw [hplace, checkAccess_of_none hwrite] at hmake
    rw [attempt, hmake]
    rfl

end Attempt

/-! ### All directories on the way -/

/-- Nothing is made for a path without text. -/
theorem makeDirectoriesFrom_of_empty (t : FileTree) {p : Path} (h : p.text = "") (fuel : Nat) :
    t.makeDirectoriesFrom p (fuel + 1) = (t, none) := by
  rw [makeDirectoriesFrom, if_pos h]

/-- Where a directory is found to stand in, one attempt is all. -/
theorem makeDirectoriesFrom_of_ne {t : FileTree} {p : Path} (hne : p.text ≠ "")
    (h : t.makeDirectory p ≠ .error .notFound) (fuel : Nat) :
    t.makeDirectoriesFrom p (fuel + 1) = t.attempt p := by
  rw [makeDirectoriesFrom, if_neg hne, attempt]
  split
  · next hmake => rw [hmake]
  · next hmake => exact absurd hmake h
  · next hmake => rw [hmake]

/-- Where no directory is found to stand in, that one is made first. -/
theorem makeDirectoriesFrom_of_notFound {t : FileTree} {p q : Path} (hne : p.text ≠ "")
    (h : t.makeDirectory p = .error .notFound) (hq : p.parent? = some q) (fuel : Nat) :
    t.makeDirectoriesFrom p (fuel + 1) =
      match t.makeDirectoriesFrom q fuel with
      | (t, some e) => (t, some e)
      | (t, none) => t.attempt p := by
  rw [makeDirectoriesFrom, if_neg hne, h]
  simp only [hq]
  rfl

/-- What stays true whenever a directory is put in a free place is true after directories are
made, or some of them before one fails. -/
theorem makeDirectoriesFrom_induction {P : FileTree → Prop}
    (hP : ∀ t names, P t → t.IsFree names → t.entry? names.dropLast = some .directory →
      P (t.insert names .directory)) {t : FileTree} (ht : P t) (p : Path) (fuel : Nat) :
    P (t.makeDirectoriesFrom p fuel).1 := by
  induction fuel generalizing p with
  | zero => exact ht
  | succ fuel ih =>
    by_cases hne : p.text = ""
    · rw [makeDirectoriesFrom_of_empty t hne]
      exact ht
    by_cases hmake : t.makeDirectory p = .error .notFound
    · cases hq : p.parent? with
      | none =>
        rw [makeDirectoriesFrom, if_neg hne, hmake]
        simp only [hq]
        exact ht
      | some q =>
        have hmade := ih q
        rw [makeDirectoriesFrom_of_notFound hne hmake hq]
        split
        · next heq =>
          rw [heq] at hmade
          exact hmade
        · next heq =>
          rw [heq] at hmade
          exact attempt_induction hP hmade p
    · rw [makeDirectoriesFrom_of_ne hne hmake]
      exact attempt_induction hP ht p

/-- A rooted tree stays rooted when directories are made. -/
theorem rooted_makeDirectoriesFrom {t : FileTree} (hr : t.Rooted) (p : Path) (fuel : Nat) :
    (t.makeDirectoriesFrom p fuel).1.Rooted := by
  apply makeDirectoriesFrom_induction _ hr
  intro t names ht hfree hdir
  exact ht.insert hfree.1 hdir _ fun old hold ↦ by rw [hfree.2] at hold; cases hold

/-- No file is touched when directories are made. -/
theorem file_makeDirectoriesFrom_iff (t : FileTree) (p : Path) (fuel : Nat) (names : Names)
    (content : ByteArray) :
    FileTree.entry? (t.makeDirectoriesFrom p fuel).1 names = some (.file content) ↔
      t.entry? names = some (.file content) := by
  apply makeDirectoriesFrom_induction
    (P := fun u ↦ u.entry? names = some (.file content) ↔ t.entry? names = some (.file content))
  · intro u free hu hfree _
    rw [entry?_insert u hfree.1, ← hu]
    split
    · next heq => simp [← heq, hfree.2]
    · rfl
  · rfl

/-! ### The way of a plain path -/

/-- The paths that the system looks up. -/
theorem checkPath_eq_ok_iff (p : Path) : checkPath p = .ok () ↔
    '\x00' ∉ p.text.toList ∧ p.text ≠ "" ∧ p.text.utf8ByteSize ≤ maxPath := by
  rw [checkPath]
  split
  · next h => simp_all
  split
  · next h => simp [h]
  split
  · next h => simp [Nat.not_le.mpr h]
  · simp_all

/-- What begins the text of a path that can be looked up can be looked up too, unless it is
empty. -/
theorem checkPath_of_start {p q : Path} (hp : checkPath p = .ok ()) {rest : String}
    (h : p.text = q.text ++ rest) : q.text = "" ∨ checkPath q = .ok () := by
  obtain ⟨hnul, -, hsize⟩ := (checkPath_eq_ok_iff p).mp hp
  by_cases hne : q.text = ""
  · exact .inl hne
  · refine .inr ((checkPath_eq_ok_iff q).mpr ⟨?_, hne, ?_⟩)
    · rw [h, String.toList_append, List.mem_append, not_or] at hnul
      exact hnul.1
    · rw [h, String.utf8ByteSize_append] at hsize
      omega

/-- The top or a dot. -/
def IsStart (p : Path) : Prop :=
  p.text = "/" ∨ p.pieces = ["."]

section Start

variable {t : FileTree} {p : Path}

/-- A path whose only piece is a dot is the dot. -/
theorem eq_dot (h : p.pieces = ["."]) : p = ⟨"."⟩ := by
  have := join_pieces p
  rw [h] at this
  cases p
  exact congrArg Path.mk this.symm

/-- The top and the dot can be looked up, and neither has a name. -/
theorem IsStart.names (h : IsStart p) : checkPath p = .ok () ∧ p.names = [] ∧
    ∃ last, splitLast p = ([], last) ∧ (last = "." ∨ last = ".." ∨ last = "") := by
  rcases h with h | h
  · obtain rfl : p = ⟨"/"⟩ := congrArg Path.mk h
    exact ⟨by decide, by decide, "", by decide, by simp⟩
  · obtain rfl := eq_dot h
    exact ⟨by decide, by decide, ".", by decide, by simp⟩

/-- Neither the top nor the dot is made, for it stands for a directory that is there. -/
theorem makeDirectory_of_isStart (hr : t.Rooted) (h : IsStart p) : t.makeDirectory p =
    (t.checkAccess .enter (t.origin p) >>= fun _ ↦ .error .alreadyExists) := by
  obtain ⟨hcheck, -, last, hsplit, hlast⟩ := h.names
  have habove : t.checkAbove p =
      (t.checkAccess .enter (t.origin p) >>= fun _ ↦ .ok (t.origin p)) := by
    simp only [checkAbove, hsplit]
    exact if_pos (hr.entry?_origin p)
  rw [makeDirectory, hcheck, ok_bind, habove, hsplit]
  cases t.checkAccess .enter (t.origin p) with
  | error e => rfl
  | ok => exact if_pos hlast

/-- For the top and for the dot all depends on whether it is found to be a directory. -/
theorem makeDirectoriesFrom_of_isStart (hr : t.Rooted) (h : IsStart p) (fuel : Nat) :
    ∃ e, t.makeDirectoriesFrom p (fuel + 1) = (t, if t.isDirectory p then none else some e) := by
  have hne : p.text ≠ "" := by
    obtain ⟨hcheck, -⟩ := h.names
    exact ((checkPath_eq_ok_iff p).mp hcheck).2.1
  have hmake := makeDirectory_of_isStart hr h
  rw [checkAccess] at hmake
  split at hmake
  · next fault _ =>
    replace hmake : t.makeDirectory p = .error (.refused fault) := hmake
    exact ⟨_, by rw [makeDirectoriesFrom_of_ne hne (by simp [hmake]), attempt, hmake]⟩
  · replace hmake : t.makeDirectory p = .error .alreadyExists := hmake
    exact ⟨_, by rw [makeDirectoriesFrom_of_ne hne (by simp [hmake]), attempt, hmake]⟩

/-- The top and the dot lead to a directory that may be entered. -/
theorem isDirectory_of_isStart (h : IsStart p) (henter : t.Enterable (t.origin p)) :
    t.isDirectory p = true := by
  rw [isDirectory_iff_lookup, lookup_eq_ok_iff_leadsToEntry]
  refine ⟨t.origin p, ?_, henter.1⟩
  rw [resolve_eq, h.names.1, ok_bind]
  rcases h with h | h
  · rw [pieces_of_top h, resolveWith_cons_of_idle (henter.checkPiece _) rfl,
      resolveWith_cons_of_idle (henter.checkPiece _) rfl]
    rfl
  · rw [h, resolveWith_cons_of_idle (henter.checkPiece _) rfl]
    rfl

end Start

section Way

variable {t t' : FileTree} {p q : Path} {above : List String} {name : String}

/-- The path above a plain one that can be looked up is plain and, unless it is empty, can be
looked up too. -/
theorem Plain.exists_parent? (hp : t.Plain p) (hcheck : checkPath p = .ok ())
    (hpieces : p.pieces = above ++ [name]) (hn : isIdle name = false) :
    ∃ q, p.parent? = some q ∧ IsAbove p q above ∧ t.origin q = t.origin p ∧ t.Plain q ∧
      (q.text = "" ∨ checkPath q = .ok ()) := by
  obtain ⟨q, hq, habove⟩ := Path.exists_parent? hpieces hn
  obtain ⟨rest, htext⟩ := habove.start
  have horigin : t.origin q = t.origin p := t.origin_congr habove.isAbsolute
  refine ⟨q, hq, habove, horigin, ⟨fun hup ↦ ?_, ?_⟩, checkPath_of_start hcheck htext⟩
  · rcases habove.mem_pieces hup with h | h
    · exact absurd h (by decide)
    · exact (hp.not_up_above hpieces).1 h
  · rw [horigin, habove.names]
    exact hp.unlinked_above hpieces hn

/-- No link comes to stand where directories are made. -/
theorem Plain.of_directoriesMade (hp : t.Plain p) {here names : Names}
    (hmade : t.DirectoriesMade t' here names) : t'.Plain p := by
  refine ⟨hp.not_up, fun other hother target he ↦ ?_⟩
  rw [hmade.seenAlike.origin, hmade.entry?] at he
  split at he
  · cases he
  · exact hp.unlinked other hother target he

private theorem text_ne_empty (hpieces : p.pieces = above ++ [name]) (hn : isIdle name = false) :
    p.text ≠ "" := by
  intro htext
  have hlast := congrArg List.getLast? hpieces
  rw [pieces_of_empty htext, List.getLast?_concat] at hlast
  cases hlast
  cases hn

private theorem directoriesMade_nil (hr : t.Rooted) (h : p.names = []) :
    t.DirectoriesMade t (t.origin p) p.names := by
  rw [h]
  refine directoriesMade_self hr (by simp [Fits]) (fun q hq hne ↦ ?_) ?_
  · exact absurd (List.prefix_nil.mp hq) hne
  · rw [List.append_nil]
    exact hr.entry?_origin p

private theorem directoriesMade_of_isStart (hr : t.Rooted) (hstart : IsStart p) {fuel : Nat}
    (h : t.makeDirectoriesFrom p (fuel + 1) = (t', none)) :
    t.DirectoriesMade t' (t.origin p) p.names := by
  obtain ⟨e, heq⟩ := makeDirectoriesFrom_of_isStart hr hstart fuel
  rw [heq] at h
  obtain rfl : t = t' := (Prod.mk.inj h).1
  exact directoriesMade_nil hr hstart.names.2.1

/-- What making the directories of a trim path has found and changed. -/
theorem directoriesMade_of_eq_none (hr : t.Rooted) (hp : t.Plain p) (htrim : IsTrim p)
    (hcheck : p.text = "" ∨ checkPath p = .ok ()) {fuel : Nat}
    (h : t.makeDirectoriesFrom p fuel = (t', none)) :
    t.DirectoriesMade t' (t.origin p) p.names := by
  induction fuel generalizing p t' with
  | zero => cases h
  | succ fuel ih =>
    cases htrim with
    | empty htext =>
      rw [makeDirectoriesFrom_of_empty t htext] at h
      cases h
      apply directoriesMade_nil hr
      rw [names, pieces_of_empty htext]
      rfl
    | top htop => exact directoriesMade_of_isStart hr (.inl htop) h
    | dot hdot => exact directoriesMade_of_isStart hr (.inr hdot) h
    | name above name hpieces hn =>
      have hne := text_ne_empty hpieces hn
      have hcheck := hcheck.resolve_left hne
      by_cases hmake : t.makeDirectory p = .error .notFound
      · obtain ⟨q, hq, habove, horigin, hqplain, hqcheck⟩ := hp.exists_parent? hcheck hpieces hn
        rw [makeDirectoriesFrom_of_notFound hne hmake hq] at h
        split at h
        · cases h
        next u hu =>
        -- The directories above are made, so the attempt stands behind directories.
        have hmade := ih hqplain habove.trim hqcheck hu
        have hroot : u.Rooted := by
          have := rooted_makeDirectoriesFrom hr q fuel
          rwa [hu] at this
        have hlast := directoriesMade_of_attempt hroot (hp.of_directoriesMade hmade) hpieces hn
          hcheck h
        rw [hmade.seenAlike.origin] at hlast
        rw [horigin] at hmade
        refine hmade.trans hlast ?_
        rw [habove.names]
        exact namesIn_prefix_names hpieces hn
      · rw [makeDirectoriesFrom_of_ne hne hmake] at h
        exact directoriesMade_of_attempt hr hp hpieces hn hcheck h

private theorem exists_makeDirectoriesFrom_of_isStart (hr : t.Rooted) (hstart : IsStart p)
    (hopen : t.IsOpen (t.origin p) p.names) (fuel : Nat) :
    ∃ t', t.makeDirectoriesFrom p (fuel + 1) = (t', none) := by
  have hpass := hopen [] List.nil_prefix
  rw [List.append_nil] at hpass
  obtain ⟨e, heq⟩ := makeDirectoriesFrom_of_isStart hr hstart fuel
  rw [isDirectory_of_isStart hstart ⟨hr.entry?_origin p, hpass.2⟩] at heq
  exact ⟨t, heq⟩

/-- Behind directories that have been made along an open way the last one may be made too. -/
theorem DirectoriesMade.isOpen {here before names : Names}
    (hmade : t.DirectoriesMade t' here before)
    (hopen : t.IsOpen here names) (hstart : before <+: names) (hne : ¬ names <+: before) :
    t'.Directories here before ∧ t'.Makeable (here ++ names) := by
  constructor
  · intro q hq
    rw [Enterable, hmade.entry?, if_pos ((List.prefix_append_right_inj _).mpr hq),
      hmade.seenAlike.refusal?]
    exact ⟨rfl, (hopen q (hq.trans hstart)).2⟩
  · rw [Makeable, hmade.entry?, if_neg (by rwa [List.prefix_append_right_inj]),
      hmade.seenAlike.refusal?]
    exact (hopen names List.prefix_rfl).1

/-- The way to the path above has a piece less, so there is fuel for it. -/
private theorem fuel_above {q : Path} {above : List String} {name : String} {fuel : Nat}
    (hpieces : p.pieces = above ++ [name]) (hn : isIdle name = false) (habove : IsAbove p q above)
    (hfuel : (p.text = "" ∨ p.text = "/") ∧ 0 < fuel + 1 ∨ p.pieces.length < fuel + 1) :
    (q.text = "" ∨ q.text = "/") ∧ 0 < fuel ∨ q.pieces.length < fuel := by
  have htop : p.text ≠ "/" := by
    intro htop
    have hnames := congrArg namesIn (pieces_of_top htop)
    rw [hpieces, namesIn_append, namesIn_cons_of_name hn] at hnames
    simp [namesIn, isIdle] at hnames
  have hlong := hfuel.resolve_left fun h ↦ h.1.elim (text_ne_empty hpieces hn) htop
  rw [hpieces, List.length_append, List.length_singleton] at hlong
  rcases habove.pieces with h | h
  · exact .inl ⟨h, by omega⟩
  · exact .inr (Nat.lt_of_le_of_lt h.length_le (Nat.lt_of_succ_lt_succ hlong))

/-- Directories are made along an open way. -/
theorem exists_makeDirectoriesFrom_of_isOpen (hr : t.Rooted) (hp : t.Plain p) (htrim : IsTrim p)
    (hcheck : p.text = "" ∨ checkPath p = .ok ()) (hfit : Fits p.names)
    (hopen : t.IsOpen (t.origin p) p.names) {fuel : Nat}
    (hfuel : (p.text = "" ∨ p.text = "/") ∧ 0 < fuel ∨ p.pieces.length < fuel) :
    ∃ t', t.makeDirectoriesFrom p fuel = (t', none) := by
  induction fuel generalizing p with
  | zero => omega
  | succ fuel ih =>
    cases htrim with
    | empty htext => exact ⟨t, makeDirectoriesFrom_of_empty t htext fuel⟩
    | top htop => exact exists_makeDirectoriesFrom_of_isStart hr (.inl htop) hopen fuel
    | dot hdot => exact exists_makeDirectoriesFrom_of_isStart hr (.inr hdot) hopen fuel
    | name above name hpieces hn =>
      have hne := text_ne_empty hpieces hn
      have hcheck := hcheck.resolve_left hne
      by_cases hd : t.Directories (t.origin p) (namesIn above)
      · have hmake : t.makeDirectory p ≠ .error .notFound := by
          rw [makeDirectory_of_directories hp hpieces hn hcheck hfit hd, checkAccess]
          split
          · simp
          · split <;> simp
        rw [makeDirectoriesFrom_of_ne hne hmake]
        exact exists_attempt_of_directories hp hpieces hn hcheck hfit hd
          (hopen p.names List.prefix_rfl).1
      · have hmake := makeDirectory_of_missing hr hp hpieces hn hcheck hfit hopen hd
        obtain ⟨q, hq, habove, horigin, hqplain, hqcheck⟩ := hp.exists_parent? hcheck hpieces hn
        have hstart : q.names <+: p.names := habove.names ▸ namesIn_prefix_names hpieces hn
        obtain ⟨u, hu⟩ := ih hqplain habove.trim hqcheck (fun s hs ↦ hfit s (hstart.subset hs))
          (fun r hr ↦ horigin ▸ hopen r (hr.trans hstart)) (fuel_above hpieces hn habove hfuel)
        have hmade := directoriesMade_of_eq_none hr hqplain habove.trim hqcheck hu
        have hlast := hp.of_directoriesMade hmade
        rw [horigin] at hmade
        obtain ⟨hd', hmakeable⟩ := hmade.isOpen hopen hstart
          (habove.names ▸ not_prefix_of_pieces hpieces hn)
        rw [habove.names] at hd'
        rw [makeDirectoriesFrom_of_notFound hne hmake hq, hu]
        refine exists_attempt_of_directories hlast hpieces hn hcheck hfit ?_ ?_
        · rw [hmade.seenAlike.origin]
          exact hd'
        · rw [hmade.seenAlike.spelled]
          exact hmakeable

end Way

end KeyHarvest.FileTree
