import KeyHarvest.Proofs.Files.Subtree

/-!
# Ways up and down

In a tree without links a path leads where its names do one by one, two dots leading to the
directory above (`Linkless.eq_wander`). All that its first pieces lead to are directories
(`Linkless.standsFor_of_prefix`), and every directory on the way up from the last one is among them,
as high as the way goes (`exists_last_visit`).
-/

namespace KeyHarvest.FileTree

open KeyHarvest.Path

/-- No entry is a link. -/
def Linkless (t : FileTree) : Prop :=
  ∀ names target, t.entry? names ≠ some (.link target)

/-- No entry is a link if none under the keys is one. -/
theorem linkless_iff (t : FileTree) :
    (∀ names ∈ t.entries.keys, (t.entry? names).any isLink = false) ↔ t.Linkless := by
  constructor
  · intro h names target hlink
    have hne : names ≠ [] := by
      rintro rfl
      cases hlink
    have hkey : names ∈ t.entries.keys := by
      rw [KeyMap.mem_keys_iff, KeyMap.contains, ← entry?_of_ne_nil t hne, hlink]
      rfl
    have hnone := h names hkey
    rw [hlink] at hnone
    cases hnone
  · intro h names _
    rw [Option.any_eq_false]
    rintro (_ | _ | target) he
    · rfl
    · rfl
    · exact absurd he (h names target)

instance (t : FileTree) : Decidable t.Linkless :=
  decidable_of_iff _ (linkless_iff t)

/-! ### Names one by one -/

/-- Where a name leads from a directory, two dots leading to the directory above. -/
def step (here : Names) (name : String) : Names :=
  if name = ".." then here.dropLast else here ++ [name]

/-- Where names lead from a directory. -/
def wander (here names : Names) : Names :=
  names.foldl step here

/-- Names lead on from where those before them lead. -/
theorem wander_append (here first second : Names) :
    wander here (first ++ second) = wander (wander here first) second :=
  List.foldl_append

/-- Names among which are no two dots lead down. -/
theorem wander_of_not_up {names : Names} (hup : ".." ∉ names) (here : Names) :
    wander here names = here ++ names := by
  induction names generalizing here with
  | nil => exact (List.append_nil here).symm
  | cons name names ih =>
    obtain ⟨hne, hup⟩ := not_or.mp (mt List.mem_cons.mpr hup)
    have hstep : step here name = here ++ [name] := if_neg (Ne.symm hne)
    show wander (step here name) names = _
    rw [hstep, ih hup, List.append_assoc, List.singleton_append]

/-- On the way to a place each directory above it, if the way goes as high as that, is passed for
the last time, and from then on the way stays below that directory. -/
theorem exists_last_visit {here names dir top : Names} (h : dir <+: wander here names)
    (htop : top <+: names) (hhigh : wander here top <+: dir) :
    ∃ visit, visit <+: names ∧ wander here visit = dir ∧
      ∀ later, visit <+: later → later <+: names → later ≠ visit →
        dir <+: wander here later ∧ wander here later ≠ dir := by
  have whole {names : Names} (heq : wander here names = dir) :
      ∃ visit, visit <+: names ∧ wander here visit = dir ∧
        ∀ later, visit <+: later → later <+: names → later ≠ visit →
          dir <+: wander here later ∧ wander here later ≠ dir :=
    ⟨names, List.prefix_rfl, heq, fun later hle hge hne ↦
      absurd (hle.eq_of_length_le hge.length_le).symm hne⟩
  induction names using List.reverseRecOn with
  | nil =>
    obtain rfl := List.prefix_nil.mp htop
    exact whole (hhigh.eq_of_length_le h.length_le)
  | append_singleton names name ih =>
    by_cases hlast : dir = wander here (names ++ [name])
    · exact whole hlast.symm
    have hbefore : dir <+: wander here names := by
      rw [wander_append] at h hlast
      change dir <+: step (wander here names) name at h
      change dir ≠ step (wander here names) name at hlast
      rw [step] at h hlast
      split at h
      · exact h.trans (List.dropLast_prefix _)
      · next hne =>
        rw [if_neg hne] at hlast
        exact (List.prefix_concat_iff.mp h).resolve_left hlast
    have htop' : top <+: names := by
      refine (List.prefix_concat_iff.mp htop).resolve_left ?_
      rintro rfl
      exact hlast (h.eq_of_length_le hhigh.length_le)
    obtain ⟨visit, hvisit, heq, hstay⟩ := ih hbefore htop'
    refine ⟨visit, hvisit.trans (List.prefix_append _ _), heq, fun later hle hge hne ↦ ?_⟩
    rcases List.prefix_concat_iff.mp hge with rfl | hge
    · exact ⟨h, Ne.symm hlast⟩
    · exact hstay later hle hge hne

/-! ### Pieces one by one -/

section Pieces

variable {t : FileTree} {follow : Bool} {through : Names → List String → Except FileError Place}
  {here there : Names} {pieces : List String}

/-- Two dots lead to the directory above. -/
theorem resolveWith_cons_of_up (hdir : t.checkPiece here ".." = .ok ()) (rest : List String) :
    t.resolveWith follow through here (".." :: rest) =
      t.resolveWith follow through here.dropLast rest := by
  rw [resolveWith, hdir]
  rfl

/-- What comes after pieces that lead to an entry is resolved from there. -/
theorem Linkless.resolveWith_append (hl : t.Linkless)
    (h : t.resolveWith follow through here pieces = .ok (.found there)) (rest : List String) :
    t.resolveWith follow through here (pieces ++ rest) =
      t.resolveWith follow through there rest := by
  induction pieces generalizing here with
  | nil =>
    cases h
    rfl
  | cons piece pieces ih =>
    obtain ⟨hdir, hleads⟩ := resolveWith_cons_eq_ok_iff.mp h
    rw [List.cons_append]
    cases hleads with
    | idle hp h => rw [resolveWith_cons_of_idle hdir ((isIdle_eq_true_iff piece).mpr hp), ih h]
    | up hp hrest =>
      subst hp
      rw [resolveWith_cons_of_up hdir, ih hrest]
    | free _ _ _ h => cases h
    | link _ he => exact absurd he (hl _ _)
    | behindLink _ he => exact absurd he (hl _ _)
    | entry hp he hlink h => rw [resolveWith_cons_of_some hdir hp he hlink, ih h]

/-- Pieces lead where the names among them do. -/
theorem Linkless.eq_wander (hl : t.Linkless)
    (h : t.resolveWith follow through here pieces = .ok (.found there)) :
    there = wander here (namesIn pieces) := by
  induction pieces generalizing here with
  | nil =>
    cases h
    rfl
  | cons piece pieces ih =>
    obtain ⟨-, hleads⟩ := resolveWith_cons_eq_ok_iff.mp h
    cases hleads with
    | idle hp h => rw [namesIn_cons_of_idle ((isIdle_eq_true_iff piece).mpr hp), ih h]
    | up hp hrest =>
      subst hp
      rw [namesIn_cons_of_name (by decide), ih hrest]
      rfl
    | free _ _ _ h => cases h
    | link _ he => exact absurd he (hl _ _)
    | behindLink _ he => exact absurd he (hl _ _)
    | entry hp _ _ h =>
      have hstep : step here piece = here ++ [piece] := if_neg hp.2.2.1
      rw [namesIn_cons_of_name ((isIdle_eq_false_iff piece).mpr ⟨hp.1, hp.2.1⟩), ih h, ← hstep]
      rfl

/-- Pieces with others after them lead to where the next one can be looked up. -/
theorem Linkless.exists_checkPiece (hl : t.Linkless) {piece : String} {rest : List String}
    (h : t.resolveWith follow through here (pieces ++ piece :: rest) = .ok (.found there)) :
    ∃ above, t.resolveWith follow through here pieces = .ok (.found above) ∧
      t.checkPiece above piece = .ok () := by
  induction pieces generalizing here with
  | nil => exact ⟨here, rfl, (resolveWith_cons_eq_ok_iff.mp h).1⟩
  | cons first pieces ih =>
    rw [List.cons_append] at h
    obtain ⟨hdir, hleads⟩ := resolveWith_cons_eq_ok_iff.mp h
    cases hleads with
    | idle hp h =>
      rw [resolveWith_cons_of_idle hdir ((isIdle_eq_true_iff first).mpr hp)]
      exact ih h
    | up hp hrest =>
      subst hp
      rw [resolveWith_cons_of_up hdir]
      exact ih hrest
    | free _ _ _ h => cases h
    | link _ he => exact absurd he (hl _ _)
    | behindLink _ he => exact absurd he (hl _ _)
    | entry hp he hlink h =>
      rw [resolveWith_cons_of_some hdir hp he hlink]
      exact ih h

end Pieces

/-! ### Directories of a path -/

/-- A path stands for a directory: it leads there, or has no text and stands for the directory from
which paths lead. -/
structure StandsFor (t : FileTree) (p : Path) (dir : Names) : Prop where
  leads : p.text = "" ∧ dir = t.origin p ∨ t.locate true p = .ok dir
  directory : t.entry? dir = some .directory

section Paths

variable {t : FileTree} {p q : Path} {dir : Names}

/-- A path stands for the directory to which its names lead. -/
theorem Linkless.eq_wander_names (hl : t.Linkless) (h : t.StandsFor p dir) :
    dir = wander (t.origin p) p.names := by
  rcases h.leads with ⟨hempty, rfl⟩ | hlocate
  · rw [names, pieces_of_empty hempty]
    rfl
  · exact hl.eq_wander ((locate_eq_ok_iff ..).mp hlocate).2

/-- A path that leads to an entry leads there from a directory. -/
theorem Linkless.entry?_origin (hl : t.Linkless) (h : t.locate true p = .ok dir) :
    t.entry? (t.origin p) = some .directory := by
  obtain ⟨first, rest, hpieces⟩ := exists_pieces_eq_cons p
  have hresolve := ((locate_eq_ok_iff ..).mp h).2
  rw [hpieces, ← List.nil_append (first :: rest)] at hresolve
  obtain ⟨above, habove, hdir⟩ := hl.exists_checkPiece hresolve
  cases habove
  exact entry?_of_checkPiece hdir

/-- A path without text stands for the directory from which paths lead. -/
theorem standsFor_of_empty (hempty : p.text = "") (hdir : t.entry? (t.origin p) = some .directory) :
    t.StandsFor p (wander (t.origin p) p.names) := by
  have hnames : p.names = [] := by
    rw [names, pieces_of_empty hempty]
    rfl
  rw [hnames]
  exact ⟨.inl ⟨hempty, rfl⟩, hdir⟩

/-- The top stands for the root. -/
theorem standsFor_top (t : FileTree) (htop : p.text = "/") :
    t.StandsFor p (wander (t.origin p) p.names) := by
  obtain rfl : p = ⟨"/"⟩ := congrArg Path.mk htop
  exact ⟨.inr rfl, rfl⟩

/-- What the first pieces of a path stand for. -/
theorem Linkless.standsFor_of_prefix (hl : t.Linkless) (h : t.locate true p = .ok dir)
    {rest : String} (htext : p.text = q.text ++ rest) (habs : q.isAbsolute = p.isAbsolute)
    {pieces : List String} (hne : pieces ≠ []) (hpieces : p.pieces = q.pieces ++ pieces) :
    t.StandsFor q (wander (t.origin q) q.names) := by
  have horigin : t.origin q = t.origin p := t.origin_congr habs
  by_cases hempty : q.text = ""
  · exact standsFor_of_empty hempty (horigin ▸ hl.entry?_origin h)
  obtain ⟨hcheck, hresolve⟩ := (locate_eq_ok_iff ..).mp h
  obtain ⟨piece, pieces, rfl⟩ := List.exists_cons_of_ne_nil hne
  rw [hpieces, ← horigin] at hresolve
  obtain ⟨above, habove, hdir⟩ := hl.exists_checkPiece hresolve
  obtain rfl : above = wander (t.origin q) q.names := hl.eq_wander habove
  have hcheck' := (checkPath_of_start hcheck htext).resolve_left hempty
  exact ⟨.inr ((locate_eq_ok_iff ..).mpr ⟨hcheck', habove⟩), entry?_of_checkPiece hdir⟩

/-- A path stands above another one that has one name more than it, or as many, and from the same
directory. It is shorter, unless it has no text or is the top. -/
structure Precedes (q p : Path) : Prop where
  isAbsolute : q.isAbsolute = p.isAbsolute
  names : p.names = q.names ∨ ∃ name, p.names = q.names ++ [name]
  size : q.text.utf8ByteSize ≤ p.text.utf8ByteSize
  length : (q.text = "" ∨ q.text = "/") ∨ q.pieces.length < p.pieces.length

/-- No path from the top comes down to a dot. -/
theorem trimPieces_ne_dot (ha : p.isAbsolute = true) : trimPieces p.pieces ≠ ["."] := by
  obtain ⟨first, rest, hpieces⟩ := exists_pieces_eq_cons p
  have hfirst : first = "" := (first_eq_empty_iff hpieces).mpr (.inr ha)
  rw [hpieces, hfirst, trimPieces]
  split <;> simp

/-- A path with pieces left when they are trimmed has text and is not the top. -/
theorem ends_of_trimPieces (h : trimPieces p.pieces ≠ []) : p.text ≠ "" ∧ p.text ≠ "/" := by
  refine ⟨fun hempty ↦ h ?_, fun htop ↦ h ?_⟩
  · rw [pieces_of_empty hempty]
    decide
  · rw [pieces_of_top htop]
    decide

/-- The path above one that stands for a directory stands for a directory that is passed on the way
there; where there is no path above, no names are left. -/
theorem Linkless.standsFor_parent? (hl : t.Linkless) (h : t.StandsFor p dir) :
    p.names = [] ∧ p.parent? = none ∨
      (p.text ≠ "" ∧ p.text ≠ "/") ∧ ∃ q, p.parent? = some q ∧
        t.StandsFor q (wander (t.origin q) q.names) ∧ Precedes q p := by
  have htrimmed : p.names = namesIn (trimPieces p.pieces) := (namesIn_trimPieces _).symm
  rcases trimPieces_cases p.pieces with htrim | htrim | ⟨above, name, htrim, hname⟩
  · refine .inl ⟨by rw [htrimmed, htrim]; rfl, ?_⟩
    rw [parent?, htrim]
  all_goals
    have hends := ends_of_trimPieces (p := p) (by simp [htrim])
    have hlocate := h.leads.resolve_left fun hempty ↦ hends.1 hempty.1
  · -- Above a dot stands the path without text.
    have habs : p.isAbsolute = false := by
      rw [Bool.eq_false_iff]
      exact fun ha ↦ trimPieces_ne_dot ha htrim
    have horigin : t.origin ⟨""⟩ = t.origin p := t.origin_congr habs.symm
    refine .inr ⟨hends, ⟨""⟩, ?_, ?_, habs.symm, .inl ?_, Nat.zero_le _, .inl (.inl rfl)⟩
    · rw [parent?, htrim]
      simp [trimPieces, habs]
    · exact standsFor_of_empty rfl (horigin ▸ hl.entry?_origin hlocate)
    · rw [htrimmed, htrim]
      decide
  · obtain ⟨q, hq, habove⟩ := exists_parent?_of_trimPieces htrim
    obtain ⟨rest, htext⟩ := habove.start
    obtain ⟨idle, hidle⟩ := trimPieces_prefix_self p.pieces
    have hsize : q.text.utf8ByteSize ≤ p.text.utf8ByteSize := by
      rw [htext, String.utf8ByteSize_append]
      exact Nat.le_add_right _ _
    have hlast : p.names = q.names ++ [name] := by
      rw [htrimmed, htrim, namesIn_append, namesIn_cons_of_name hname, habove.names]
      rfl
    refine .inr ⟨hends, q, hq, ?_, habove.isAbsolute, .inr ⟨name, hlast⟩, hsize,
      habove.pieces.imp_right fun hstart ↦ ?_⟩
    · rcases habove.pieces with (hempty | htop) | ⟨between, hbetween⟩
      · have horigin : t.origin q = t.origin p := t.origin_congr habove.isAbsolute
        exact standsFor_of_empty hempty (horigin ▸ hl.entry?_origin hlocate)
      · exact t.standsFor_top htop
      · have hbehind : between ++ name :: idle ≠ [] := by simp
        refine hl.standsFor_of_prefix hlocate htext habove.isAbsolute hbehind ?_
        rw [← hidle, htrim, ← hbetween]
        simp
    · have hlength := (trimPieces_prefix_self p.pieces).length_le
      rw [htrim, List.length_append] at hlength
      exact Nat.lt_of_le_of_lt hstart.length_le hlength

/-! ### Entries of a directory -/

variable {name : String}

/-- The path of an entry is longer than that of its directory by a slash and the name at most. -/
theorem utf8ByteSize_child_le (p : Path) (hname : NamesEntry name) :
    (p.child name).text.utf8ByteSize ≤ p.text.utf8ByteSize + 1 + name.utf8ByteSize := by
  rw [child, join, if_neg (by simp [isAbsolute_of_name hname.2.2.2])]
  split
  · rw [String.utf8ByteSize_append]
    exact Nat.add_le_add_right (Nat.le_succ _) _
  · rw [String.utf8ByteSize_append, String.utf8ByteSize_append]
    exact Nat.le_refl _

/-- A name that is no longer than the system takes, and a path short enough to have it added. -/
structure Fitting (p : Path) (name : String) : Prop where
  namesEntry : NamesEntry name
  no_nul : '\x00' ∉ name.toList
  short : name.utf8ByteSize ≤ maxName
  room : p.text.utf8ByteSize + 1 + name.utf8ByteSize ≤ maxPath

/-- The path of an entry can be looked up if that of its directory can. -/
theorem Fitting.checkPath_child (hfit : Fitting p name)
    (h : p.text = "" ∨ checkPath p = .ok ()) : checkPath (p.child name) = .ok () := by
  have ha := isAbsolute_of_name hfit.namesEntry.2.2.2
  have hsize := (utf8ByteSize_child_le p hfit.namesEntry).trans hfit.room
  rw [checkPath_eq_ok_iff]
  rcases h with hempty | hcheck
  · have hchild : p.child name = ⟨name⟩ := by
      rw [child, join, if_neg (by simp [ha]), if_pos (.inl hempty), hempty, String.empty_append]
    rw [hchild] at hsize ⊢
    exact ⟨hfit.no_nul, hfit.namesEntry.1, hsize⟩
  · obtain ⟨hnul, hne, -⟩ := (checkPath_eq_ok_iff p).mp hcheck
    refine ⟨?_, text_join_ne_empty _ hne, hsize⟩
    rw [child, join, if_neg (by simp [ha])]
    split <;> simp [String.toList_append, hnul, hfit.no_nul]

/-- The pieces before its name in the path of an entry lead to the directory that the path before it
stands for, from the same directory as that path. -/
theorem Linkless.exists_pieces_child (hl : t.Linkless) (h : t.StandsFor p dir)
    (hname : NamesEntry name) : ∃ front, (p.child name).pieces = front ++ [name] ∧
      t.resolveWith true (t.resolvePieces true 39) (t.origin (p.child name)) front =
        .ok (.found dir) := by
  obtain ⟨-, -, -, hslash⟩ := id hname
  have ha := isAbsolute_of_name hslash
  rcases h.leads with ⟨htext, rfl⟩ | hlocate
  · have hchild : p.child name = ⟨name⟩ := by
      rw [child, join, if_neg (by simp [ha]), if_pos (.inl htext), htext, String.empty_append]
    have habs : p.isAbsolute = false := by
      rw [Bool.eq_false_iff]
      exact fun habs ↦ text_ne_empty_of_isAbsolute habs htext
    refine ⟨[], ?_, ?_⟩
    · rw [hchild, pieces_of_name hslash, List.nil_append]
    · rw [hchild, resolveWith, t.origin_congr (ha.trans habs.symm)]
  · have hne := text_ne_empty_of_locate hlocate
    obtain ⟨front, -, hfront, hpieces⟩ := hname.exists_pieces_child hne
    have horigin : t.origin (p.child name) = t.origin p := by
      refine t.origin_congr ?_
      rw [Bool.eq_iff_iff, ← opening_eq_top_iff, ← opening_eq_top_iff, child, opening_join hne ha]
    refine ⟨front, hpieces, ?_⟩
    rw [horigin]
    have hresolve := ((locate_eq_ok_iff ..).mp hlocate).2
    rcases hfront with hfront | hfront
    · rwa [← hfront]
    · rw [hfront] at hresolve
      obtain ⟨above, habove, hdir⟩ := hl.exists_checkPiece hresolve
      rw [hl.resolveWith_append habove, resolveWith_cons_of_idle hdir rfl] at hresolve
      cases hresolve
      exact habove

/-- An entry of a name stands in a directory where it can be looked up. -/
def Holds (t : FileTree) (dir : Names) (name : String) : Prop :=
  (t.entry? (dir ++ [name])).isSome = true ∧ t.refusal? .enter dir = none

instance (t : FileTree) (dir : Names) (name : String) : Decidable (t.Holds dir name) :=
  inferInstanceAs (Decidable (_ ∧ _))

/-- The path of an entry leads there if the entry exists and may be looked up, and nowhere
otherwise. -/
theorem Linkless.locate_child_iff (hl : t.Linkless) (h : t.StandsFor p dir) (hfit : Fitting p name)
    (names : Names) : t.locate true (p.child name) = .ok names ↔
      names = dir ++ [name] ∧ t.Holds dir name := by
  obtain ⟨hempty, hdot, hup, -⟩ := hfit.namesEntry
  have hcheck : checkPath (p.child name) = .ok () :=
    hfit.checkPath_child (h.leads.imp And.left checkPath_of_locate)
  obtain ⟨front, hpieces, hfront⟩ := hl.exists_pieces_child h hfit.namesEntry
  have hname : IsName name := ⟨hempty, hdot, hup, hfit.short⟩
  rw [locate_eq_ok_iff, hpieces, hl.resolveWith_append hfront, Holds]
  by_cases henter : t.refusal? .enter dir = none
  · have hdir : t.Enterable dir := ⟨h.directory, henter⟩
    cases he : t.entry? (dir ++ [name]) with
    | none => simp [resolveWith_cons_of_none (hdir.checkPiece _) hname he]
    | some e =>
      have hlink (target : String) : e ≠ .link target := fun heq ↦ hl _ target (heq ▸ he)
      rw [resolveWith_cons_of_some (hdir.checkPiece _) hname he hlink, resolveWith]
      simp [hcheck, henter, eq_comm]
  · refine ⟨fun hleads ↦ ?_, fun hholds ↦ absurd hholds.2.2 henter⟩
    have hdir := (resolveWith_cons_eq_ok_iff.mp hleads.2).1
    exact absurd (enterable_of_checkPiece hdir hempty).2 henter

/-- The path of an entry exists if the entry does and may be looked up. -/
theorem Linkless.pathExists_child (hl : t.Linkless) (h : t.StandsFor p dir)
    (hfit : Fitting p name) : t.pathExists (p.child name) = true ↔ t.Holds dir name := by
  have hlocate := hl.locate_child_iff h hfit
  rw [pathExists_iff]
  constructor
  · rintro ⟨names, e, hplace, -⟩
    exact ((hlocate names).mp ((locate_eq_ok_iff_resolve ..).mpr hplace)).2
  · intro hholds
    obtain ⟨e, he⟩ := Option.isSome_iff_exists.mp hholds.1
    have hplace := (locate_eq_ok_iff_resolve ..).mp ((hlocate _).mpr ⟨rfl, hholds⟩)
    exact ⟨_, e, hplace, he⟩

end Paths

end KeyHarvest.FileTree
