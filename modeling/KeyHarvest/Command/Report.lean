import KeyHarvest.Command.Style
import KeyHarvest.Locale
import KeyHarvest.Sources

/-!
# Reports

What the commands did, in words. The outcome of an extraction is reported for each locale and then
as a whole; what else is worth knowing is given as notes and warnings.
-/

namespace KeyHarvest.Command

/-- How a command ends. -/
inductive ExitStatus where
  /-- All is done. -/
  | success
  /-- Something is left to do. -/
  | failure
  /-- The command could not run. -/
  | error
  deriving DecidableEq, Repr

/-- The number of an exit status. -/
def ExitStatus.code : ExitStatus → Nat
  | .success => 0
  | .failure => 1
  | .error => 2

/-- What an extraction did. -/
structure ExtractSummary where
  /-- The number of source files read. -/
  sourceFiles : Nat
  /-- The number of matches. -/
  matchCount : Nat
  /-- The number of keys. -/
  keyCount : Nat
  /-- What became of each locale. -/
  locales : List LocaleOutcome
  /-- The source files that could not be read. -/
  unreadable : List Unreadable
  /-- Whether nothing was to be written. -/
  isDryRun : Bool
  deriving DecidableEq, Repr

/-- What the making of a file of settings did. -/
structure InitSummary where
  /-- The path of the file. -/
  path : Path
  /-- Whether it was made, and not there before. -/
  created : Bool
  deriving DecidableEq, Repr

/-- What a command did. -/
inductive Summary where
  | extract (summary : ExtractSummary)
  | init (summary : InitSummary)
  deriving DecidableEq, Repr

namespace ExtractSummary

/-- The number of locales whose text differs from that of their file. -/
def changedCount (s : ExtractSummary) : Nat :=
  s.locales.countP (·.changed)

/-- The sum of the counters of all locales. -/
def totals (s : ExtractSummary) : Stats :=
  s.locales.foldl (fun sum o ↦ sum + o.stats) {}

end ExtractSummary

/-- How a command ends that did what the summary says. -/
def Summary.exitStatus : Summary → ExitStatus
  | .extract s => if s.isDryRun && 0 < s.changedCount then .failure else .success
  | .init s => if s.created then .success else .failure

/-- The sign of success. -/
def successMark : String := "✓"

/-- The sign of failure. -/
def failureMark : String := "✘"

/-- The first word for one thing, the second for any other number. -/
def counted (n : Nat) (one many : String) : String :=
  Nat.repr n ++ " " ++ if n = 1 then one else many

/-- A line that begins with the word for a note. -/
def noteLine (colored : Bool) (text : String) : String :=
  Style.bold.apply colored "note:" ++ " " ++ text ++ "\n"

/-- A line that begins with the word for a warning. -/
def warningLine (colored : Bool) (text : String) : String :=
  Style.boldYellow.apply colored "warning:" ++ " " ++ text ++ "\n"

/-- A line that says how all went. -/
def resultLine (colored : Bool) (style : Style) (mark text : String) : String :=
  style.apply colored mark ++ " " ++ style.apply colored text ++ "\n"

/-- The lines about a locale. -/
def localeLines (colored isDryRun : Bool) (o : LocaleOutcome) : String :=
  let state :=
    if o.written then Style.green.apply colored "written"
    else if isDryRun && o.changed then Style.yellow.apply colored "would be written"
    else Style.dimmed.apply colored "unchanged"
  Style.bold.apply colored (o.stats.summaryLine o.locale) ++ "\n" ++
    Style.dimmed.apply colored (o.stats.emptyLine o.locale) ++ "\n" ++
    "  " ++ Style.blue.apply colored "-->" ++ " " ++ o.path.text ++ " (" ++ state ++ ")\n"

namespace ExtractSummary

/-- What was extracted, from how many files into how many. -/
def scope (s : ExtractSummary) : String :=
  counted s.keyCount "key" "keys" ++ " from " ++ Nat.repr s.sourceFiles ++ " source " ++
    (if s.sourceFiles = 1 then "file" else "files") ++ " into " ++ Nat.repr s.locales.length ++
    " locale " ++ (if s.locales.length = 1 then "file" else "files")

/-- The last line of the report. -/
def conclusion (s : ExtractSummary) (colored : Bool) : String :=
  let changed := s.changedCount
  if s.isDryRun && 0 < changed then
    resultLine colored .red failureMark (Nat.repr changed ++ " locale " ++
      (if changed = 1 then "file" else "files") ++ " out of date (dry run, " ++
      Nat.repr s.totals.new ++ " new / " ++ Nat.repr s.totals.deleted ++ " deleted)")
  else if s.isDryRun then
    resultLine colored .green successMark ("Checked " ++ s.scope ++ " - up to date")
  else resultLine colored .green successMark ("Extracted " ++ s.scope)

/-- The report on all locales. -/
def report (s : ExtractSummary) (colored : Bool) : String :=
  String.join (s.locales.map (localeLines colored s.isDryRun)) ++ s.conclusion colored

/-- The note on the number of matches. -/
def matchNote (s : ExtractSummary) (verbose colored : Bool) : String :=
  if verbose then
    noteLine colored (counted s.matchCount "match" "matches" ++ " in " ++ Nat.repr s.sourceFiles ++
      " source " ++ if s.sourceFiles = 1 then "file" else "files")
  else ""

/-- The warnings about the file of a locale: keys that it cannot hold, and its state before. -/
def storeWarning (verbose colored : Bool) (o : LocaleOutcome) : String :=
  String.join (o.shadowed.map fun key ↦ warningLine colored (o.path.text ++ ": key '" ++ key ++
    "' is left out because other keys are nested under it")) ++
    match o.status with
    | .invalid reason => warningLine colored (o.path.text ++
        " could not be loaded, treating it as empty: " ++ reason)
    | .missing => if verbose then noteLine colored (o.path.text ++ " does not exist yet") else ""
    | .loaded => ""

/-- The warnings about the files of all locales. -/
def storeWarnings (s : ExtractSummary) (verbose colored : Bool) : String :=
  String.join (s.locales.map (storeWarning verbose colored))

/-- The warnings about source files that could not be read. -/
def unreadableWarning (s : ExtractSummary) (verbose colored : Bool) : String :=
  if s.unreadable.isEmpty then ""
  else if verbose then
    String.join (s.unreadable.map fun u ↦
      warningLine colored ("Cannot read " ++ u.path.text ++ ": " ++ u.reason))
  else
    warningLine colored (Nat.repr s.unreadable.length ++ " file(s) could not be read (use " ++
      Style.cyan.apply colored "-v" ++ " for details)")

end ExtractSummary

/-- The line about the making of a file of settings. -/
def InitSummary.line (s : InitSummary) (colored : Bool) : String :=
  if s.created then resultLine colored .green successMark ("Created " ++ s.path.text)
  else resultLine colored .red failureMark (s.path.text ++ " already exists")

end KeyHarvest.Command
