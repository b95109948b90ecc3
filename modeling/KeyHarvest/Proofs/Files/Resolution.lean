import KeyHarvest.Files.Tree
import KeyHarvest.Proofs.Except

/-!
# How paths resolve

A path that leads somewhere is resolved piece by piece, and each piece leads on in one of six ways
(`Leads`, `resolveWith_cons_eq_ok_iff`). Where a path leads to a free name, nothing is there
(`isFree_of_resolve`). On its way to its last pieces a path leads to a directory
(`exists_of_resolvePieces_append`).
-/

namespace KeyHarvest.FileTree

/-! ### Accesses -/

section Access

variable {t : FileTree} {names : Names}

/-- An access passes its check if it is not refused. -/
theorem checkAccess_eq_ok_iff {a : Access} :
    t.checkAccess a names = .ok () ↔ t.refusal? a names = none := by
  rw [checkAccess]
  split
  · next h => simp [h]
  · next h => simp [h]

/-- An access that is not refused passes. -/
theorem checkAccess_of_none {a : Access} (h : t.refusal? a names = none) :
    t.checkAccess a names = .ok () :=
  checkAccess_eq_ok_iff.mpr h

/-- What an access includes is not refused where the access is not. -/
theorem refusal?_of_rank_le {a b : Access} (hle : a.rank ≤ b.rank)
    (h : t.refusal? b names = none) : t.refusal? a names = none := by
  rw [refusal?] at h ⊢
  split
  · next first fault hfirst =>
    rw [hfirst] at h
    have hlater : ¬ first.rank ≤ b.rank := by
      intro hrank
      simp only [if_pos hrank] at h
      cases h
    exact if_neg fun hrank ↦ hlater (Nat.le_trans hrank hle)
  · rfl

/-- A directory stands under the names and may be entered. -/
def Enterable (t : FileTree) (names : Names) : Prop :=
  t.entry? names = some .directory ∧ t.refusal? .enter names = none

instance (t : FileTree) (names : Names) : Decidable (t.Enterable names) :=
  inferInstanceAs (Decidable (_ ∧ _))

/-- A piece can be looked up in a directory that may be entered, if there is anything to look up. -/
theorem checkPiece_eq_ok_iff {piece : String} : t.checkPiece names piece = .ok () ↔
    t.entry? names = some .directory ∧ (piece = "" ∨ t.refusal? .enter names = none) := by
  rw [checkPiece]
  split
  · next h => simp [h]
  next hdir =>
  replace hdir := Decidable.not_not.mp hdir
  split
  · next h => simp [h, hdir]
  · next h => simp [h, hdir, checkAccess_eq_ok_iff]

/-- Every piece can be looked up in a directory that may be entered. -/
theorem Enterable.checkPiece (h : t.Enterable names) (piece : String) :
    t.checkPiece names piece = .ok () :=
  checkPiece_eq_ok_iff.mpr ⟨h.1, .inr h.2⟩

/-- What a piece is looked up in is a directory. -/
theorem entry?_of_checkPiece {piece : String} (h : t.checkPiece names piece = .ok ()) :
    t.entry? names = some .directory :=
  (checkPiece_eq_ok_iff.mp h).1

/-- A piece that is not empty is looked up in a directory that may be entered. -/
theorem enterable_of_checkPiece {piece : String} (h : t.checkPiece names piece = .ok ())
    (hne : piece ≠ "") : t.Enterable names :=
  ⟨entry?_of_checkPiece h, (checkPiece_eq_ok_iff.mp h).2.resolve_left hne⟩

end Access

/-! ### Pieces -/

/-- A piece that is looked up in a directory. -/
def IsName (piece : String) : Prop :=
  piece ≠ "" ∧ piece ≠ "." ∧ piece ≠ ".." ∧ piece.utf8ByteSize ≤ maxName

/-- The ways in which the first of some pieces can lead to a place, the pieces being resolved from a
directory. -/
inductive Leads (t : FileTree) (follow : Bool)
    (through : Names → List String → Except FileError Place) (here : Names) (piece : String)
    (rest : List String) (place : Place) : Prop where
  | idle (hp : piece = "" ∨ piece = ".")
    (h : t.resolveWith follow through here rest = .ok place)
  | up (hp : piece = "..") (h : t.resolveWith follow through here.dropLast rest = .ok place)
  | free (hp : IsName piece) (he : t.entry? (here ++ [piece]) = none) (hr : rest = [])
    (h : place = .free (here ++ [piece]))
  | link (hp : IsName piece) {target : String}
    (he : t.entry? (here ++ [piece]) = some (.link target)) (hr : rest = [] ∧ follow = false)
    (h : place = .found (here ++ [piece]))
  | behindLink (hp : IsName piece) {target : String}
    (he : t.entry? (here ++ [piece]) = some (.link target)) (hr : ¬ (rest = [] ∧ follow = false))
    (ht : target ≠ "")
    (h : through ((Path.mk target).origin here) ((Path.mk target).pieces ++ rest) = .ok place)
  | entry (hp : IsName piece) {e : Entry} (he : t.entry? (here ++ [piece]) = some e)
    (hl : ∀ target, e ≠ .link target)
    (h : t.resolveWith follow through (here ++ [piece]) rest = .ok place)

variable {t : FileTree} {follow : Bool} {through : Names → List String → Except FileError Place}
  {here : Names} {piece : String} {rest : List String} {place : Place}

/-- A name leads on by the entry under it. -/
theorem resolveWith_cons_of_name (hdir : t.checkPiece here piece = .ok ()) (hp : IsName piece) :
    t.resolveWith follow through here (piece :: rest) =
      match t.entry? (here ++ [piece]) with
      | none => if rest = [] then .ok (.free (here ++ [piece])) else .error .notFound
      | some (.link target) =>
        if rest = [] ∧ !follow then .ok (.found (here ++ [piece]))
        else if target = "" then .error .notFound
        else through ((Path.mk target).origin here) ((Path.mk target).pieces ++ rest)
      | some _ => t.resolveWith follow through (here ++ [piece]) rest := by
  obtain ⟨hempty, hdot, hup, hlong⟩ := hp
  rw [resolveWith, hdir]
  simp only
  rw [if_neg (not_or.mpr ⟨hempty, hdot⟩), if_neg hup]
  exact if_neg (Nat.not_lt.mpr hlong)

private theorem leads_of_name (hdir : t.checkPiece here piece = .ok ()) (hp : IsName piece)
    (h : t.resolveWith follow through here (piece :: rest) = .ok place) :
    Leads t follow through here piece rest place := by
  rw [resolveWith_cons_of_name hdir hp] at h
  split at h
  · next he =>
    split at h
    · next hr =>
      cases h
      exact .free hp he hr rfl
    · cases h
  · next target he =>
    split at h
    · next hr =>
      cases h
      exact .link hp he ⟨hr.1, by simpa using hr.2⟩ rfl
    next hr =>
    split at h
    · cases h
    · next ht => exact .behindLink hp he (by simpa using hr) ht h
  · next e hl he => exact .entry hp he hl h

private theorem leads_of_resolveWith
    (h : t.resolveWith follow through here (piece :: rest) = .ok place) :
    t.checkPiece here piece = .ok () ∧ Leads t follow through here piece rest place := by
  have hread := h
  rw [resolveWith] at h
  split at h
  · cases h
  next hdir =>
  refine ⟨hdir, ?_⟩
  split at h
  · next hidle => exact .idle hidle h
  next hidle =>
  split at h
  · next hup => exact .up hup h
  next hup =>
  split at h
  · cases h
  next hlong =>
  obtain ⟨hempty, hdot⟩ := not_or.mp hidle
  exact leads_of_name hdir ⟨hempty, hdot, hup, Nat.not_lt.mp hlong⟩ hread

/-- Pieces lead to a place when the first one can be looked up and leads on. -/
theorem resolveWith_cons_eq_ok_iff :
    t.resolveWith follow through here (piece :: rest) = .ok place ↔
      t.checkPiece here piece = .ok () ∧ Leads t follow through here piece rest place := by
  constructor
  · exact leads_of_resolveWith
  rintro ⟨hdir, hleads⟩
  cases hleads with
  | idle hp h =>
    rw [resolveWith, hdir, ← h]
    exact if_pos hp
  | up hp h =>
    subst hp
    rw [resolveWith, hdir, ← h]
    rfl
  | free hp he hr h => rw [resolveWith_cons_of_name hdir hp, he, h, if_pos hr]
  | link hp he hr h =>
    rw [resolveWith_cons_of_name hdir hp, he, h]
    exact if_pos (by simp [hr])
  | behindLink hp he hr ht h =>
    rw [resolveWith_cons_of_name hdir hp, he, ← h]
    exact (if_neg (by simpa using hr)).trans (if_neg ht)
  | @entry hp e he hl h =>
    rw [resolveWith_cons_of_name hdir hp, he, ← h]
    cases e with
    | link target => exact absurd rfl (hl target)
    | file | directory => rfl

/-- A path that leads somewhere is one that the system looks up. -/
theorem checkPath_of_resolve {p : Path} (h : t.resolve follow p = .ok place) :
    checkPath p = .ok () := by
  rw [resolve, bind_eq_ok_iff] at h
  obtain ⟨⟨⟩, hcheck, -⟩ := h
  exact hcheck

/-! ### Free names -/

/-- The names lead to no entry, not even to the root. -/
def IsFree (t : FileTree) (names : Names) : Prop :=
  names ≠ [] ∧ t.entry? names = none

private theorem isFree_of_resolveWith
    (hthrough : ∀ here pieces names, through here pieces = .ok (.free names) → t.IsFree names)
    {pieces : List String} {names : Names}
    (h : t.resolveWith follow through here pieces = .ok (.free names)) : t.IsFree names := by
  induction pieces generalizing here with
  | nil => cases h
  | cons piece rest ih =>
    obtain ⟨-, hleads⟩ := resolveWith_cons_eq_ok_iff.mp h
    cases hleads with
    | idle _ h => exact ih h
    | up _ h => exact ih h
    | free _ he _ h =>
      cases h
      exact ⟨by simp, he⟩
    | link _ _ _ h => cases h
    | behindLink _ _ _ _ h => exact hthrough _ _ _ h
    | entry _ _ _ h => exact ih h

private theorem isFree_of_resolvePieces {links : Nat} {pieces : List String} {names : Names}
    (h : t.resolvePieces follow links here pieces = .ok (.free names)) : t.IsFree names := by
  induction links generalizing here pieces names with
  | zero =>
    refine isFree_of_resolveWith ?_ h
    intro _ _ _ hthrough
    cases hthrough
  | succ links ih => exact isFree_of_resolveWith (fun _ _ _ ↦ ih) h

/-- Where a path leads to a free name, nothing is there. -/
theorem isFree_of_resolve {p : Path} {names : Names}
    (h : t.resolve follow p = .ok (.free names)) : t.IsFree names := by
  rw [resolve, bind_eq_ok_iff] at h
  obtain ⟨_, -, h⟩ := h
  exact isFree_of_resolvePieces h

/-! ### Parts of a way -/

section Parts

variable {back : List String}

/-- Pieces lead on to a place from a directory. -/
def LeadsOn (t : FileTree) (dir : Names) (back : List String) (place : Place) : Prop :=
  t.entry? dir = some .directory ∧ ∃ links, t.resolvePieces true links dir back = .ok place

private theorem exists_of_resolveWith_append (hback : back ≠ [])
    {through : Names → List String → Except FileError Place}
    (hthrough : ∀ here front, through here (front ++ back) = .ok place →
      ∃ dir, through here front = .ok (.found dir) ∧ t.LeadsOn dir back place)
    (hself : ∃ links, t.resolvePieces true links = t.resolveWith true through)
    {here : Names} {front : List String}
    (h : t.resolveWith true through here (front ++ back) = .ok place) :
    ∃ dir, t.resolveWith true through here front = .ok (.found dir) ∧ t.LeadsOn dir back place := by
  induction front generalizing here with
  | nil =>
    obtain ⟨links, hlinks⟩ := hself
    obtain ⟨piece, rest, rfl⟩ := List.exists_cons_of_ne_nil hback
    have hdir := entry?_of_checkPiece (resolveWith_cons_eq_ok_iff.mp h).1
    exact ⟨here, rfl, hdir, links, by rw [hlinks]; exact h⟩
  | cons piece front ih =>
    rw [List.cons_append] at h
    obtain ⟨hdir, hleads⟩ := resolveWith_cons_eq_ok_iff.mp h
    simp only [resolveWith_cons_eq_ok_iff]
    cases hleads with
    | idle hp h =>
      obtain ⟨dir, hfront, hon⟩ := ih h
      exact ⟨dir, ⟨hdir, .idle hp hfront⟩, hon⟩
    | up hp h =>
      obtain ⟨dir, hfront, hon⟩ := ih h
      exact ⟨dir, ⟨hdir, .up hp hfront⟩, hon⟩
    | free hp he hr hplace => exact absurd (List.append_eq_nil_iff.mp hr).2 hback
    | link hp he hr => cases hr.2
    | behindLink hp he hr ht h =>
      -- The pieces of the target stand in front, so the last pieces stay the last.
      rw [← List.append_assoc] at h
      obtain ⟨dir, hfront, hon⟩ := hthrough _ _ h
      exact ⟨dir, ⟨hdir, .behindLink hp he (by simp) ht hfront⟩, hon⟩
    | entry hp he hl h =>
      obtain ⟨dir, hfront, hon⟩ := ih h
      exact ⟨dir, ⟨hdir, .entry hp he hl hfront⟩, hon⟩

/-- Pieces that lead somewhere lead to a directory on the way, from which the others lead on. -/
theorem exists_of_resolvePieces_append (hback : back ≠ []) {links : Nat} {here : Names}
    {front : List String} (h : t.resolvePieces true links here (front ++ back) = .ok place) :
    ∃ dir, t.resolvePieces true links here front = .ok (.found dir) ∧
      t.LeadsOn dir back place := by
  induction links generalizing here front with
  | zero =>
    refine exists_of_resolveWith_append hback ?_ ⟨0, rfl⟩ h
    intro _ _ hthrough
    cases hthrough
  | succ links ih => exact exists_of_resolveWith_append hback (fun _ _ ↦ ih) ⟨links + 1, rfl⟩ h

/-- A path that leads somewhere leads to a directory before any of its last pieces. -/
theorem exists_of_resolve {p : Path} {front : List String} (hback : back ≠ [])
    (hpieces : p.pieces = front ++ back) (h : t.resolve true p = .ok place) :
    checkPath p = .ok () ∧ ∃ dir,
      t.resolvePieces true maxLinks (t.origin p) front = .ok (.found dir) ∧
        t.LeadsOn dir back place := by
  rw [resolve, bind_eq_ok_iff, hpieces] at h
  obtain ⟨⟨⟩, hcheck, h⟩ := h
  exact ⟨hcheck, exists_of_resolvePieces_append hback h⟩

/-- Pieces lead to a place through links when the first one can be looked up and leads on. -/
theorem resolvePieces_cons_eq_ok {links : Nat} {here : Names} {piece : String} {rest : List String}
    (h : t.resolvePieces true links here (piece :: rest) = .ok place) :
    t.checkPiece here piece = .ok () ∧ ∃ through, Leads t true through here piece rest place := by
  cases links with
  | zero => exact ⟨(resolveWith_cons_eq_ok_iff.mp h).1, _, (resolveWith_cons_eq_ok_iff.mp h).2⟩
  | succ links =>
    exact ⟨(resolveWith_cons_eq_ok_iff.mp h).1, _, (resolveWith_cons_eq_ok_iff.mp h).2⟩

end Parts

end KeyHarvest.FileTree
