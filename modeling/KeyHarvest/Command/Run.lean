import KeyHarvest.Command.Arguments
import KeyHarvest.Command.Help
import KeyHarvest.Command.Report
import KeyHarvest.Config.Discovery

/-!
# Running a command

A command line is run on the files, seen from the current directory, with an engine for the
patterns. The outcome is the tree afterwards, what is shown on either output, and the exit status;
nothing else can happen.

An extraction that fails leaves the files of the locales before the failing one as they were
updated.
-/

namespace KeyHarvest.Command

/-- What running a command line leads to. -/
structure Outcome where
  /-- The files afterwards. -/
  tree : FileTree
  /-- What is shown as the result. -/
  output : String
  /-- What is shown as notes, warnings and errors. -/
  messages : String
  /-- How the command ends. -/
  status : ExitStatus

/-- Why an extraction fails. -/
inductive ExtractError where
  /-- The settings cannot be loaded. -/
  | settings (e : Config.LoadError)
  /-- The settings do not pass. -/
  | invalid (e : Config.Invalid)
  /-- The patterns cannot be built. -/
  | patterns (e : Catalog.BuildError)
  /-- A locale cannot be updated. -/
  | locale (name : String) (e : SaveError)
  deriving DecidableEq, Repr

/-- The words of an error, the cause last. -/
def ExtractError.message : ExtractError → String
  | .settings e => e.message
  | .invalid e => e.message
  | .patterns e => "Failed to build extraction patterns: " ++ e.message
  | .locale name e => "Failed to update locale '" ++ name ++ "': " ++ e.message

/-- A path of the settings or the command line, seen from the root of the project. -/
def resolvePath (root configured : Path) : Path :=
  if configured.isAbsolute then configured else root.join configured.withoutDot

/-- The settings with what the command line asks for instead. Switches can only be turned on. -/
def applyArguments (c : Config) (a : ExtractArguments) : Config :=
  { c with
    locales := if a.locales.isEmpty then c.locales else a.locales
    defaultLocale := a.defaultLocale.getD c.defaultLocale
    safeMode := c.safeMode || a.safeMode
    nullOnEmpty := c.nullOnEmpty || a.nullOnEmpty
    namespaced := c.namespaced || a.namespaced }

/-- Update locales one after the other, up to the first that fails. The tree is returned also
then. -/
def updateLocales (keys : Extracted) (dryRun : Bool) (t : FileTree) :
    List LocaleTarget → FileTree × Except ExtractError (List LocaleOutcome)
  | [] => (t, .ok [])
  | target :: rest =>
    match target.update t keys dryRun with
    | (t, .error e) => (t, .error (.locale target.locale e))
    | (t, .ok outcome) =>
      match updateLocales keys dryRun t rest with
      | (t, .ok outcomes) => (t, .ok (outcome :: outcomes))
      | (t, .error e) => (t, .error e)

/-- What an extraction works on, once settings and command line agree. -/
structure Plan where
  /-- The settings in force. -/
  config : Config
  /-- Whether there is a file of settings. -/
  fromFile : Bool
  /-- The root of the project. -/
  root : Path
  /-- The directory of the locale files. -/
  dest : Path

namespace Plan

/-- The plan of an extraction, before the settings are checked. -/
def make (t : FileTree) (a : ExtractArguments) : Except ExtractError Plan :=
  let root : Path := ⟨a.sourceRoot.getD "."⟩
  match Config.load t root with
  | .error e => .error (.settings e)
  | .ok (config, fromFile) =>
    .ok
      { config := applyArguments config a
        fromFile
        root
        dest := resolvePath root ⟨a.dest.getD config.dest⟩ }

/-- The directory of the sources. -/
def sourceDirectory (p : Plan) : Path :=
  resolvePath p.root ⟨p.config.sourceRoot⟩

/-- What to scan there. -/
def scanOptions (p : Plan) : ScanOptions :=
  ⟨p.config.includes, p.config.ignores, p.config.extensions⟩

/-- The locales to update, each once, where it is named first. -/
def targets (p : Plan) : List LocaleTarget :=
  p.config.locales.eraseDups.map fun locale ↦
    { dest := p.dest
      front := p.config.front
      back := p.config.back
      locale
      options := p.config.mergeOptions locale }

/-- The catalog of the settings, if they pass. -/
def catalog (p : Plan) (engine : Regex.Engine := .standard) : Except ExtractError Catalog :=
  match p.config.invalid? with
  | some e => .error (.invalid e)
  | none => (Catalog.ofOptions p.config.catalogOptions engine).mapError .patterns

end Plan

/-- The notes and warnings of a scan. -/
def scanMessages (scan : ScanResult) (verbose colored : Bool) : String :=
  let details := String.join (scan.warnings.map fun w ↦ warningLine colored w.message)
  let skipped := Nat.repr scan.skipped ++ " path(s) skipped due to access errors" ++
    if verbose then "" else " (use -v for details)"
  (if verbose then details else "") ++
    if 0 < scan.skipped then warningLine colored skipped else ""

/-- What an extraction does: the files afterwards, what was said on the way, and the summary unless
it fails. -/
def extract (t : FileTree) (a : ExtractArguments) (colored : Bool)
    (engine : Regex.Engine := .standard) :
    FileTree × String × Except ExtractError ExtractSummary :=
  match Plan.make t a with
  | .error e => (t, "", .error e)
  | .ok plan =>
    let found :=
      if a.verbose && !plan.fromFile then
        noteLine colored ("No " ++ Config.fileName ++ " found, using default configuration")
      else ""
    match plan.catalog engine with
    | .error e => (t, found, .error e)
    | .ok catalog =>
      let patterns :=
        if a.verbose then noteLine colored (Nat.repr catalog.size ++ " extraction patterns") else ""
      let scan := t.scan plan.sourceDirectory plan.scanOptions
      let said := found ++ patterns ++ scanMessages scan a.verbose colored
      let harvest := catalog.harvest t scan.files
      match updateLocales harvest.keys a.dryRun t plan.targets with
      | (t, .error e) => (t, said, .error e)
      | (t, .ok locales) =>
        (t, said, .ok
          { sourceFiles := harvest.filesRead
            matchCount := harvest.matchCount
            keyCount := harvest.keys.size
            locales
            unreadable := harvest.unreadable
            isDryRun := a.dryRun })

/-- The line that reports why a command fails. -/
def errorLine (message : String) : String :=
  "Error: " ++ message ++ "\n"

/-- Run the extraction. -/
def runExtract (t : FileTree) (a : ExtractArguments) (colored : Bool)
    (engine : Regex.Engine := .standard) : Outcome :=
  match extract t a colored engine with
  | (t, said, .error e) => ⟨t, "", said ++ errorLine e.message, .error⟩
  | (t, said, .ok s) =>
    { tree := t
      output := s.report colored
      messages := said ++ s.matchNote a.verbose colored ++ s.storeWarnings a.verbose colored ++
        s.unreadableWarning a.verbose colored
      status := (Summary.extract s).exitStatus }

/-- Make a file of settings in the current directory, unless there is one. -/
def runInit (t : FileTree) (colored : Bool) : Outcome :=
  let path : Path := ⟨Config.fileName⟩
  let done (t : FileTree) (created : Bool) : Outcome :=
    let s : InitSummary := ⟨path, created⟩
    { tree := t
      output := if created then s.line colored else ""
      messages := if created then "" else s.line colored
      status := (Summary.init s).exitStatus }
  if t.pathExists path then done t false
  else
    match t.write path Config.initial.render.toUTF8 with
    | .ok t => done t true
    | .error e =>
      ⟨t, "", errorLine ("Failed to write " ++ Config.fileName ++ ": " ++ e.message), .error⟩

/-- Run a command line. -/
def run (t : FileTree) (args : List String) (colored : Bool)
    (engine : Regex.Engine := .standard) : Outcome :=
  match parseArguments args with
  | .error e => ⟨t, "", e.message, .error⟩
  | .ok (.help level) => ⟨t, level.page, "", .success⟩
  | .ok .version => ⟨t, versionLine, "", .success⟩
  | .ok (.extract a) => runExtract t a colored engine
  | .ok .init => runInit t colored

end KeyHarvest.Command
