import KeyHarvest.Command.Argument

/-!
# Help pages

The page of each command: what it does, its usage, and its arguments.
-/

namespace KeyHarvest.Command

/-- The lines of a page as a text. -/
def pageText (lines : List String) : String :=
  "\n".intercalate lines ++ "\n"

/-- What the program does, in one line. -/
def about : String :=
  "Extract angular-translate keys from templates and scripts into locale JSON files"

/-- What a command does, in one line. -/
def Level.about : Level → String
  | .program => Command.about
  | .extract => "Extract translation keys and update locale JSON files"
  | .init => "Initialize a new .ngxtractrc.json configuration file"
  | .help => "Print this message or the help of the given subcommand(s)"

/-- What an argument of the extraction is for, in one line. -/
def Argument.about : Argument → String
  | .sourceRoot =>
    "Project root; the config file is searched from here (default: current directory)"
  | .verbose => "Enable verbose output"
  | .locale =>
    "Locale to update (overrides config file) Can be specified multiple times: " ++
      "--locale en-US --locale fr-FR"
  | .defaultLocale =>
    "Locale whose empty entries are filled with their own key (overrides config file)"
  | .dest => "Directory of the locale files (overrides config file)"
  | .safeMode => "Keep keys that are no longer found in the sources"
  | .nullOnEmpty => "Write null instead of \"\" for untranslated entries"
  | .namespaced => "Nest dotted keys into JSON objects"
  | .dryRun => "Report what would change without writing locale files"
  | .help => "Print help"
  | .version => "Print version"

/-- An argument with its letter, in line with those that have none. -/
def Argument.entry (a : Argument) : String :=
  match a.short? with
  | some c => "  -" ++ String.singleton c ++ ", " ++ a.display
  | none => "      " ++ a.display

/-- The page of a command. -/
def Level.page (level : Level) : String :=
  let top := [level.about, "", "Usage: " ++ level.usage, ""]
  match level with
  | .program => pageText (top ++ [
      "Commands:",
      "  extract  " ++ Level.extract.about,
      "  init     " ++ Level.init.about,
      "  help     " ++ Level.help.about,
      "",
      "Options:",
      Argument.help.entry ++ "     " ++ Argument.help.about,
      Argument.version.entry ++ "  " ++ Argument.version.about])
  | .extract => pageText (top ++ "Options:" ::
      Level.extract.arguments.flatMap fun a ↦ [a.entry, "          " ++ a.about])
  | .init => pageText (top ++ ["Options:", Argument.help.entry ++ "  " ++ Argument.help.about])
  | .help => pageText (top ++ ["Arguments:", "  [COMMAND]...  Print help for the subcommand(s)"])

/-- The line that names the program and its version. -/
def versionLine : String :=
  programName ++ " " ++ programVersion ++ "\n"

end KeyHarvest.Command
