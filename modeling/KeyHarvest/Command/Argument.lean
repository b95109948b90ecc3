/-!
# Arguments of the commands

The commands, the named arguments that each takes, and their written forms.
-/

namespace KeyHarvest.Command

/-- The name of the program. -/
def programName : String := "ngxtract"

/-- The version of the program. -/
def programVersion : String := "0.1.0"

/-- A named argument. -/
inductive Argument where
  | sourceRoot
  | verbose
  | locale
  | defaultLocale
  | dest
  | safeMode
  | nullOnEmpty
  | namespaced
  | dryRun
  | help
  | version
  deriving DecidableEq, Repr

namespace Argument

/-- The long name. -/
def long : Argument → String
  | .sourceRoot => "source-root"
  | .verbose => "verbose"
  | .locale => "locale"
  | .defaultLocale => "default-locale"
  | .dest => "dest"
  | .safeMode => "safe-mode"
  | .nullOnEmpty => "null-on-empty"
  | .namespaced => "namespace"
  | .dryRun => "dry-run"
  | .help => "help"
  | .version => "version"

/-- The letter that stands for the argument, if there is one. -/
def short? : Argument → Option Char
  | .verbose => some 'v'
  | .help => some 'h'
  | .version => some 'V'
  | _ => none

/-- What the value of the argument is called, if it takes one. -/
def valueName? : Argument → Option String
  | .sourceRoot => some "SOURCE_ROOT"
  | .locale => some "LOCALE"
  | .defaultLocale => some "DEFAULT_LOCALE"
  | .dest => some "DEST"
  | _ => none

/-- Whether the value is a path, which cannot be empty. -/
def isPath : Argument → Bool
  | .sourceRoot | .dest => true
  | _ => false

/-- Whether the argument may be given more than once. -/
def repeats : Argument → Bool
  | .locale => true
  | _ => false

/-- The long form with the name of its value. -/
def display (a : Argument) : String :=
  match a.valueName? with
  | some name => "--" ++ a.long ++ " <" ++ name ++ ">"
  | none => "--" ++ a.long

end Argument

/-- A group of arguments of the same purpose. -/
inductive Group where
  | common
  | extraction
  deriving DecidableEq, Repr

/-- The members of a group. -/
def Group.members : Group → List Argument
  | .common => [.sourceRoot, .verbose]
  | .extraction =>
    [.locale, .defaultLocale, .dest, .safeMode, .nullOnEmpty, .namespaced, .dryRun]

/-- The members of a group, as a usage line shows them. -/
def Group.display (g : Group) : String :=
  "<" ++ "|".intercalate (g.members.map Argument.display) ++ ">"

/-- The group of an argument, if it has one. -/
def Argument.group? (a : Argument) : Option Group :=
  [Group.common, .extraction].find? (·.members.contains a)

/-- A command, or the program as a whole. -/
inductive Level where
  | program
  | extract
  | init
  | help
  deriving DecidableEq, Repr

namespace Level

/-- The word that calls a command. -/
def word : Level → String
  | .program => programName
  | .extract => "extract"
  | .init => "init"
  | .help => "help"

/-- The commands. -/
def commands : List Level := [.extract, .init, .help]

/-- The command that a word calls. -/
def ofWord? (w : String) : Option Level :=
  commands.find? (·.word == w)

/-- The named arguments of a command. -/
def arguments : Level → List Argument
  | .program => [.help, .version]
  | .extract => Group.common.members ++ Group.extraction.members ++ [.help]
  | .init => [.help]
  | .help => []

/-- The argument of a command with a long name. -/
def long? (level : Level) (name : String) : Option Argument :=
  level.arguments.find? (·.long == name)

/-- The argument of a command with a letter. -/
def short? (level : Level) (c : Char) : Option Argument :=
  level.arguments.find? (·.short? == some c)

/-- The words that call a command. -/
def call : Level → String
  | .program => programName
  | level => programName ++ " " ++ level.word

/-- The usage of a command in short. -/
def usage (level : Level) : String :=
  level.call ++
    match level with
    | .program => " [COMMAND]"
    | .extract => " [OPTIONS]"
    | .init => ""
    | .help => " [COMMAND]..."

/-- The usage of a command with the arguments that were used. Arguments of a group that was used are
shown by their group. -/
def usageOf (level : Level) (used : List Argument) (groups : List Group) : String :=
  if used.isEmpty then level.usage
  else
    let single := (used.filter fun a ↦ !groups.any (·.members.contains a)).eraseDups
    " ".intercalate (level.call :: single.map Argument.display ++ groups.map Group.display)

end Level

end KeyHarvest.Command
