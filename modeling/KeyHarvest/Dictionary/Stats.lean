import KeyHarvest.Decimal.Fixed

/-!
# Statistics

The counters of one reconciliation, their sum over several, and the two lines that report them.
-/

namespace KeyHarvest

/-- The counters of a reconciliation. -/
structure Stats where
  /-- The number of extracted keys. -/
  total : Nat := 0
  /-- The extracted keys that the dictionary did not have. -/
  new : Nat := 0
  /-- The keys of the dictionary that were not extracted. -/
  deleted : Nat := 0
  /-- The extracted keys that the dictionary had. -/
  updated : Nat := 0
  /-- The entries without text. -/
  empty : Nat := 0
  deriving DecidableEq, Repr

namespace Stats

/-- Each counter of one added to that of the other. -/
def add (a b : Stats) : Stats :=
  ⟨a.total + b.total, a.new + b.new, a.deleted + b.deleted, a.updated + b.updated,
    a.empty + b.empty⟩

instance : Add Stats := ⟨add⟩

/-- The share of entries without text, in percent. -/
def emptyPercent (s : Stats) : Double :=
  percent s.empty s.total

/-- What changed in a locale, in one line. -/
def summaryLine (s : Stats) (locale : String) : String :=
  locale ++ " statistics: Updated: " ++ Nat.repr s.updated ++ " / Deleted: " ++
    Nat.repr s.deleted ++ " / New: " ++ Nat.repr s.new

/-- How much of a locale is untranslated, in one line. -/
def emptyLine (s : Stats) (locale : String) : String :=
  locale ++ " empty: " ++ Nat.repr s.empty ++ " / " ++ Nat.repr s.total ++ " (" ++
    tenthsText s.emptyPercent.tenths ++ "%)"

end Stats

end KeyHarvest
