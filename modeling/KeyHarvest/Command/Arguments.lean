import KeyHarvest.Command.Argument
import KeyHarvest.Text.Similarity

/-!
# Reading the command line

The words of a command line call a command and give its arguments. Words are read from left to
right and the first fault is reported; a value is taken only when the next argument follows it, so
an unknown argument is reported before a missing value. Letters may be joined behind one hyphen, a
long name may have its value behind an equals sign, and after two hyphens no word is an argument.
-/

namespace KeyHarvest.Command

/-- What a command line asks of the extraction. -/
structure ExtractArguments where
  /-- The root of the project. -/
  sourceRoot : Option String := none
  /-- Whether notes are shown. -/
  verbose : Bool := false
  /-- The locales to update instead of those of the settings. -/
  locales : List String := []
  /-- The default locale instead of that of the settings. -/
  defaultLocale : Option String := none
  /-- The directory of the locale files instead of that of the settings. -/
  dest : Option String := none
  /-- Whether keys that are not extracted stay. -/
  safeMode : Bool := false
  /-- Whether empty entries are null. -/
  nullOnEmpty : Bool := false
  /-- Whether keys are nested. -/
  namespaced : Bool := false
  /-- Whether nothing is written. -/
  dryRun : Bool := false
  deriving DecidableEq, Repr

/-- What a command line asks for. -/
inductive Invocation where
  | extract (arguments : ExtractArguments)
  | init
  /-- The page of a command. -/
  | help (level : Level)
  /-- The version of the program. -/
  | version
  deriving DecidableEq, Repr

/-- What a command line may have meant. -/
inductive Hint where
  /-- Another argument of the command. -/
  | argument (name : String)
  /-- An argument of another command. -/
  | ofCommand (command : Level) (name : String)
  deriving DecidableEq, Repr

/-- Why a command line is refused. -/
inductive ArgumentError where
  /-- A word that is no argument here, with the usage to show. -/
  | unexpected (word : String) (hint : Option Hint) (usage : String)
  /-- A value for an argument that takes none. -/
  | unneededValue (value : String) (argument : Argument) (usage : String)
  /-- No value for an argument that takes one. -/
  | missingValue (argument : Argument)
  /-- An argument that may be given once is given again. -/
  | repeated (argument : Argument) (usage : String)
  /-- A word that calls no command, and the commands like it. -/
  | unknownCommand (word : String) (similar : List String) (usage : String)
  /-- A command behind two hyphens. -/
  | behindHyphens (word : String) (usage : String)
  deriving DecidableEq, Repr

/-- How reading ends before all words are read. -/
inductive Halt where
  /-- A page or the version is asked for. -/
  | ask (invocation : Invocation)
  /-- The command line is refused. -/
  | refuse (e : ArgumentError)
  deriving DecidableEq, Repr

/-- What has been read of the arguments of a command. -/
structure Progress where
  /-- The command. -/
  level : Level
  /-- The arguments taken, in order. -/
  used : List Argument := []
  /-- What they ask for. -/
  result : ExtractArguments := {}
  /-- The argument whose value may follow or has followed, and is still to be taken. -/
  pending : Option (Argument × Option String) := none
  deriving DecidableEq, Repr

namespace Progress

/-- The groups of the arguments taken, in order. -/
def groups (p : Progress) : List Group :=
  (p.used.filterMap Argument.group?).eraseDups

/-- The usage of the command with the arguments taken and more of them. -/
def usage (p : Progress) (more : List Argument) (moreGroups : List Group) : String :=
  p.level.usageOf (p.used ++ more) (p.groups ++ moreGroups).eraseDups

/-- Record what an argument asks for. -/
def record (r : ExtractArguments) (a : Argument) (value : String) : ExtractArguments :=
  match a with
  | .sourceRoot => { r with sourceRoot := some value }
  | .verbose => { r with verbose := true }
  | .locale => { r with locales := r.locales ++ [value] }
  | .defaultLocale => { r with defaultLocale := some value }
  | .dest => { r with dest := some value }
  | .safeMode => { r with safeMode := true }
  | .nullOnEmpty => { r with nullOnEmpty := true }
  | .namespaced => { r with namespaced := true }
  | .dryRun => { r with dryRun := true }
  | .help | .version => r

/-- Take an argument with its value, empty if it takes none. -/
def take (p : Progress) (a : Argument) (value : String) : Except Halt Progress :=
  match a with
  | .help => .error (.ask (.help p.level))
  | .version => .error (.ask .version)
  | _ =>
    if p.used.contains a && !a.repeats then .error (.refuse (.repeated a p.level.usage))
    else if a.isPath && value == "" then .error (.refuse (.missingValue a))
    else .ok { p with used := p.used ++ [a], result := record p.result a value }

/-- Take the argument whose value is still to be taken. -/
def settle (p : Progress) : Except Halt Progress :=
  match p.pending with
  | none => .ok p
  | some (a, none) => .error (.refuse (.missingValue a))
  | some (a, some value) => { p with pending := none }.take a value

/-- Take the argument whose value is still to be taken if that can be done; its fault does not
matter before a greater one. -/
def settleIfPossible (p : Progress) : Progress :=
  match p.pending with
  | some (a, some value) =>
    if a.isPath && value == "" && !p.used.contains a then
      { p with used := p.used ++ [a], pending := none }
    else
      match { p with pending := none }.take a value with
      | .ok p => p
      | .error _ => { p with pending := none }
  | _ => { p with pending := none }

/-- Settle what is pending, then take an argument. -/
def takeNext (p : Progress) (a : Argument) (value : String) : Except Halt Progress := do
  (← p.settle).take a value

/-- The arguments that an unknown long name may have meant: the most similar one of the command, or
of the first command among the later words that has a similar one. -/
def hint? (p : Progress) (name : String) (later : List String) : Option Hint :=
  match (Text.similarTo name (p.level.arguments.map Argument.long)).getLast? with
  | some similar => some (.argument similar)
  | none =>
    if p.level = .program then
      later.findSome? fun w ↦ do
        let command ← [Level.extract, .init].find? (·.word == w)
        let similar ← (Text.similarTo name (command.arguments.map Argument.long)).getLast?
        some (.ofCommand command similar)
    else none

/-- Refuse a long name. -/
def refuseLong (p : Progress) (name : String) (later : List String) : Halt :=
  let p := p.settleIfPossible
  let hint := p.hint? name later
  let meant :=
    match hint with
    | some (.argument similar) => (p.level.long? similar).toList
    | _ => []
  .refuse (.unexpected ("--" ++ name) hint (p.usage meant (meant.filterMap Argument.group?)))

/-- Read a long name, perhaps with a value behind an equals sign. -/
def long (p : Progress) (name : String) (value : Option String) (later : List String) :
    Except Halt Progress :=
  match p.level.long? name with
  | none => .error (p.refuseLong name later)
  | some a =>
    match a.valueName?, value with
    | some _, some v => p.takeNext a v
    | some _, none => do .ok { (← p.settle) with pending := some (a, none) }
    | none, some v => .error (.refuse (.unneededValue v a (p.usage [a] [])))
    | none, none => p.takeNext a ""

/-- Read letters joined behind one hyphen. -/
def letters (p : Progress) : List Char → Except Halt Progress
  | [] => .ok p
  | c :: cs =>
    match p.level.short? c with
    | none =>
      .error (.refuse (.unexpected (String.ofList ['-', c]) none p.level.usage))
    | some a => do (← p.takeNext a "").letters cs

/-- Refuse a word that is no argument. -/
def refuseWord (p : Progress) (w : String) (behindHyphens : Bool) : Halt :=
  let usage := p.level.usage
  if p.level = .program then
    if behindHyphens && (Level.ofWord? w).isSome then .refuse (.behindHyphens w usage)
    else .refuse (.unknownCommand w (Text.similarTo w (Level.commands.map Level.word)) usage)
  else .refuse (.unexpected w none usage)

/-- How a word is written. -/
inductive Form where
  /-- Two hyphens. -/
  | hyphens
  /-- A long name, with the value behind an equals sign. -/
  | long (name : String) (value : Option String)
  /-- Letters behind one hyphen. -/
  | letters (cs : List Char)
  /-- Anything else. -/
  | plain

/-- The form of a word. -/
def formOf (w : String) : Form :=
  match w.toList with
  | ['-', '-'] => .hyphens
  | '-' :: '-' :: cs =>
    let name := cs.takeWhile (· != '=')
    let value := if cs.contains '=' then some (String.ofList (cs.drop (name.length + 1))) else none
    .long (String.ofList name) value
  | '-' :: c :: cs => .letters (c :: cs)
  | _ => .plain

/-- Read a word that calls no command. -/
def word (p : Progress) (w : String) (later : List String) : Except Halt Progress :=
  match formOf w with
  | .long name value => p.long name value later
  | .letters cs => p.letters cs
  | .hyphens | .plain =>
    match p.pending with
    | some (a, none) => .ok { p with pending := some (a, some w) }
    | _ => .error (p.refuseWord w false)

/-- Read the words of a command. -/
def words (p : Progress) : List String → Except Halt Progress
  | [] => p.settle
  | w :: later =>
    if w = "--" then
      match later with
      | [] => p.settle
      | w :: _ => .error (p.refuseWord w true)
    else do (← p.word w later).words later

end Progress

/-- Read the words after `help`, each calling a command of the one before it. -/
def helpWords (level : Level) : List String → Except Halt Invocation
  | [] => .ok (.help level)
  | w :: rest =>
    match if level = .program then Level.ofWord? w else none with
    | some next => helpWords next rest
    | none => .error (.refuse (.unknownCommand w [] level.usage))

/-- Read the words of a command line up to the command, and then those of the command. -/
def programWords (p : Progress) : List String → Except Halt Invocation
  | [] => .ok (.help .program)
  | w :: later =>
    match Level.ofWord? w with
    | some .extract => do
      .ok (.extract (← Progress.words { level := .extract } later).result)
    | some .init => do
      let _ ← Progress.words { level := .init } later
      .ok .init
    | some .help => helpWords .program later
    | some .program | none =>
      if w = "--" then
        match later with
        | [] => .ok (.help .program)
        | w :: _ => .error (p.refuseWord w true)
      else do programWords (← p.word w later) later

/-- What a command line asks for. -/
def parseArguments (args : List String) : Except ArgumentError Invocation :=
  match programWords { level := .program } args with
  | .ok invocation => .ok invocation
  | .error (.ask invocation) => .ok invocation
  | .error (.refuse e) => .error e

namespace ArgumentError

/-- A text between single quotes. -/
def inQuotes (s : String) : String :=
  "'" ++ s ++ "'"

/-- The words of an error, a hint and a usage put together. -/
def shape (what : String) (tip usage : Option String) : String :=
  "error: " ++ what ++ "\n\n" ++
    (match tip with
    | some t => "  tip: " ++ t ++ "\n\n"
    | none => "") ++
    (match usage with
    | some u => "Usage: " ++ u ++ "\n\n"
    | none => "") ++
    "For more information, try '--help'.\n"

/-- The words of a hint. -/
def hintText : Hint → String
  | .argument name => "a similar argument exists: " ++ inQuotes ("--" ++ name)
  | .ofCommand command name => inQuotes (command.word ++ " --" ++ name) ++ " exists"

/-- The text that reports an error. -/
def message : ArgumentError → String
  | .unexpected word hint usage =>
    shape ("unexpected argument " ++ inQuotes word ++ " found") (hint.map hintText) (some usage)
  | .unneededValue value argument usage =>
    shape ("unexpected value " ++ inQuotes value ++ " for " ++ inQuotes argument.display ++
      " found; no more were expected") none (some usage)
  | .missingValue argument =>
    shape ("a value is required for " ++ inQuotes argument.display ++ " but none was supplied")
      none none
  | .repeated argument usage =>
    shape ("the argument " ++ inQuotes argument.display ++ " cannot be used multiple times") none
      (some usage)
  | .unknownCommand word similar usage =>
    let tip :=
      match similar with
      | [] => none
      | [one] => some ("a similar subcommand exists: " ++ inQuotes one)
      | more => some ("some similar subcommands exist: " ++ ", ".intercalate (more.map inQuotes))
    shape ("unrecognized subcommand " ++ inQuotes word) tip (some usage)
  | .behindHyphens word usage =>
    shape ("unexpected argument " ++ inQuotes word ++ " found")
      (some ("subcommand " ++ inQuotes word ++ " exists; to use it, remove the '--' before it"))
      (some usage)

end ArgumentError

end KeyHarvest.Command
