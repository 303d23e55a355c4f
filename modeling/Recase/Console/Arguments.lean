import Recase.Text.Digit
import Recase.Text.Pieces

/-!
# Command-line arguments

* `Command`: a subcommand with its directories and options.
* `Request`: what the arguments ask for: a command, the menu without one, or the end of the program
  with an exit code, after help or bad usage.
* `readArguments`: the request of the arguments.

All words are classified before any is used (`classifyAll`): options by their exact text, by what
stands before an equals sign, by an unambiguous beginning of a long option, or by the letter of a
short one with more letters after it; an equals sign may stand before these letters. The directories
must stand together (`Phase`); whatever is left over is bad usage, found only after everything
before it has been used, so that help asked for earlier is still given.
-/

namespace Recase.Console

open Text

/-- The options of a run, as they are given. -/
structure RunArguments where
  directories : List String
  force : Bool
  log : Bool
  /-- The file of the log; none if two hyphens are given for it, which never stand for a file. -/
  logFile : Option String
  dryRun : Bool
  yes : Bool
  deriving Repr, DecidableEq

/-- A subcommand. -/
inductive Command
  | run (arguments : RunArguments)
  | preview (directories : List String)
  | recover (directories : List String)
  deriving Repr, DecidableEq

/-- What the arguments ask for. -/
inductive Request
  | command (command : Command)
  | menu
  | exit (code : Nat)
  deriving Repr, DecidableEq

/-- What an option sets. -/
inductive Setting
  | help
  | force
  | log
  | logFile
  | dryRun
  | yes
  deriving Repr, DecidableEq

/-- Whether the option takes a value. -/
def Setting.takesValue (s : Setting) : Bool := s == .logFile

/-- The spellings of options. -/
abbrev OptionTable := List (List Char × Setting)

/-- The options that every command has. -/
def helpOptions : OptionTable := [("-h".toList, .help), ("--help".toList, .help)]

/-- The options of a run. -/
def runOptions : OptionTable :=
  helpOptions ++
    [("--force".toList, .force), ("-f".toList, .force), ("--log".toList, .log),
      ("-l".toList, .log), ("--log-file".toList, .logFile), ("--dry-run".toList, .dryRun),
      ("-d".toList, .dryRun), ("--yes".toList, .yes), ("-y".toList, .yes)]

/-- The exit code after bad usage. -/
def badUsage : Nat := 2

/-- What is given with an option in one word. -/
inductive Attachment
  | nothing
  /-- What follows an equals sign. -/
  | value (cs : List Char)
  /-- What follows the letter of a short option, an equals sign after it left out. -/
  | letters (cs : List Char)
  deriving Repr, DecidableEq

/-- An option as it stands in the arguments: what it sets, and what is given with it. -/
structure OptionUse where
  setting : Setting
  attached : Attachment
  deriving Repr, DecidableEq

/-- What a word is. -/
inductive Word
  | argument (text : String)
  /-- The two hyphens after which everything is an argument. -/
  | separator
  | known (use : OptionUse)
  | unknown
  deriving Repr, DecidableEq

/-! ## Classifying words -/

/-- Whether the characters are decimal digits and there are some. -/
def areDigits (cs : List Char) : Bool := !cs.isEmpty && cs.all isDecimalDigit

/-- Whether the word is a negative number, whole or with a decimal point; a line feed may end it. -/
def looksNegative (word : List Char) : Bool :=
  match (['\n'].isSuffixOf? word).getD word with
  | '-' :: cs =>
    areDigits cs || (cs.dropWhile isDecimalDigit).head? == some '.'
      && areDigits ((cs.dropWhile isDecimalDigit).drop 1)
  | _ => false

/-- Whether the spelling is that of a single letter. -/
def isShortSpelling (spelling : List Char) : Bool := (spelling.drop 1).head? != some '-'

/-- The word up to the first equals sign, and the value after it if there is one. -/
def splitEquals (word : List Char) : List Char × Attachment :=
  match word.dropWhile (· != '=') with
  | _ :: value => (word.takeWhile (· != '='), .value value)
  | [] => (word, .nothing)

/-- The uses that a word may be of options that it does not spell out: that of a short option with
letters after its own, or those of the long options that begin like it. -/
def candidates (table : OptionTable) (word : List Char) : List OptionUse :=
  if isShortSpelling word then
    (table.filter (·.1 == word.take 2)).map fun (_, setting) => ⟨setting, .letters (word.drop 2)⟩
  else
    let (beginning, attached) := splitEquals word
    (table.filter (beginning.isPrefixOf ·.1)).map fun (_, setting) => ⟨setting, attached⟩

/-- The use of an option that is spelt out before an equals sign. What follows the sign after a
short option is more letters. -/
def spelledUse? (table : OptionTable) (word : List Char) : Option OptionUse :=
  match splitEquals word with
  | (spelling, .value (c :: cs)) =>
    (table.lookup spelling).map fun setting =>
      ⟨setting, if isShortSpelling spelling then .letters (c :: cs) else .value (c :: cs)⟩
  | (spelling, .value []) => (table.lookup spelling).map fun setting => ⟨setting, .value []⟩
  | _ => none

/-- What a word that starts with a hyphen and spells out no option is. -/
def classifyUnspelled (table : OptionTable) (text : String) : Except Nat Word :=
  let word := text.toList
  match spelledUse? table word, candidates table word with
  | some use, _ => .ok (.known use)
  | none, [use] => .ok (.known use)
  | none, _ :: _ :: _ => .error badUsage
  | none, [] => .ok (if looksNegative word || word.contains ' ' then .argument text else .unknown)

/-- What a word is, unless it is ambiguous. -/
def classify (table : OptionTable) (text : String) : Except Nat Word :=
  let word := text.toList
  if word.head? != some '-' then .ok (.argument text)
  else
    match table.lookup word with
    | some setting => .ok (.known ⟨setting, .nothing⟩)
    | none => if word == ['-'] then .ok (.argument text) else classifyUnspelled table text

/-- What the words are. After two hyphens all are arguments. -/
def classifyAll (table : OptionTable) : List String → Except Nat (List Word)
  | [] => .ok []
  | text :: rest =>
    if text = "--" then .ok (.separator :: rest.map .argument)
    else do
      let word ← classify table text
      let more ← classifyAll table rest
      .ok (word :: more)

/-! ## Using words -/

/-- What options set, each with its value if it has one. -/
abbrev Settings := List (Setting × Option String)

/-- The settings of a short option and of the letters after it. A letter that is no option is bad
usage. -/
def letterSettings (table : OptionTable) (setting : Setting) : List Char → Except Nat Settings
  | [] => .ok [(setting, none)]
  | c :: rest =>
    if setting.takesValue then .ok [(setting, some (String.ofList (c :: rest)))]
    else
      match table.lookup ['-', c] with
      | none => .error badUsage
      | some next => (letterSettings table next rest).map ((setting, none) :: ·)

/-- The settings of an option as it stands in the arguments. -/
def OptionUse.settings (table : OptionTable) (use : OptionUse) : Except Nat Settings :=
  match use.attached with
  | .nothing => .ok [(use.setting, none)]
  | .value value =>
    if use.setting.takesValue then .ok [(use.setting, some (String.ofList value))]
    else .error badUsage
  | .letters cs => letterSettings table use.setting cs

/-- Whether help is among the settings. -/
def Settings.askHelp (s : Settings) : Bool := s.any (·.1 == .help)

/-- Whether the last of the settings takes a value and has none. -/
def Settings.awaitValue (s : Settings) : Bool :=
  match s.getLast? with
  | some (setting, none) => setting.takesValue
  | _ => false

/-- The settings with the value that the last of them awaits. -/
def Settings.withValue (s : Settings) (value : String) : Settings :=
  match s.getLast? with
  | some (setting, _) => s.dropLast ++ [(setting, some value)]
  | none => s

/-- Whether the directories are still to come, are being read, or have been read. -/
inductive Phase
  | before
  | within
  | after
  deriving Repr, DecidableEq

/-- The phase after an option. -/
def Phase.afterOption : Phase → Phase
  | .before => .before
  | .within | .after => .after

/-- What the words of a command give: settings, directories, and whether anything is left over. -/
structure Taken where
  settings : Settings
  directories : List String
  hasMore : Bool
  deriving Repr, DecidableEq

namespace Taken

/-- Nothing taken. -/
def empty : Taken := ⟨[], [], false⟩

/-- With settings in front. -/
def withSettings (settings : Settings) (t : Taken) : Taken :=
  { t with settings := settings ++ t.settings }

/-- With a directory in front. -/
def withDirectory (directory : String) (t : Taken) : Taken :=
  { t with directories := directory :: t.directories }

/-- With something left over. -/
def withMore (t : Taken) : Taken := { t with hasMore := true }

end Taken

/-- What the words of a command give, from left to right. Help ends the program at once. -/
def take (table : OptionTable) : Phase → List Word → Except Nat Taken
  | _, [] => .ok .empty
  | phase, .known use :: .argument value :: rest => do
    let settings ← use.settings table
    if settings.askHelp then .error 0
    else if settings.awaitValue then
      let taken ← take table phase.afterOption rest
      .ok (taken.withSettings (settings.withValue value))
    else
      let taken ← take table phase.afterOption (.argument value :: rest)
      .ok (taken.withSettings settings)
  | phase, .known use :: rest => do
    let settings ← use.settings table
    if settings.askHelp then .error 0
    else if settings.awaitValue then .error badUsage
    else
      let taken ← take table phase.afterOption rest
      .ok (taken.withSettings settings)
  | phase, .unknown :: rest => (take table phase.afterOption rest).map (·.withMore)
  | .after, .argument _ :: rest => (take table .after rest).map (·.withMore)
  | .after, .separator :: rest => (take table .after rest).map (·.withMore)
  | _, .argument text :: rest => (take table .within rest).map (·.withDirectory text)
  | _, .separator :: rest => take table .within rest

/-- What the words after a command's name give. -/
def takeAll (table : OptionTable) (words : List String) : Except Nat Taken := do
  let taken ← take table .before (← classifyAll table words)
  if taken.directories.isEmpty then .error badUsage else .ok taken

/-- The file that a log is written to unless another is given. -/
def defaultLogFile : String := "kebabify.log"

/-- The file that a log is written to, from the values given for it. The last one counts. -/
def logFileOf (values : List String) : Option String :=
  match values.getLast? with
  | none => some defaultLogFile
  | some value => if value = "--" then none else some value

/-- The run that is asked for. -/
def Taken.runArguments (t : Taken) : RunArguments :=
  { directories := t.directories
    force := t.settings.any (·.1 == .force)
    log := t.settings.any (·.1 == .log)
    logFile := logFileOf (t.settings.filterMap fun (setting, value?) =>
      if setting == .logFile then value? else none)
    dryRun := t.settings.any (·.1 == .dryRun)
    yes := t.settings.any (·.1 == .yes) }

/-- The command with a name, from the words after it, and whether anything is left over. -/
def readCommand (name : String) (words : List String) : Except Nat (Command × Bool) :=
  if name = "run" then
    (takeAll runOptions words).map fun t => (.run t.runArguments, t.hasMore)
  else if name = "preview" then
    (takeAll helpOptions words).map fun t => (.preview t.directories, t.hasMore)
  else if name = "recover" then
    (takeAll helpOptions words).map fun t => (.recover t.directories, t.hasMore)
  else .error badUsage

/-- The request of classified words, given with their texts. Options may stand before the name of
the command; those that are not known are left over. -/
def readWords (hasMore : Bool) : List (Word × String) → Except Nat Request
  | [] => if hasMore then .error badUsage else .ok .menu
  | (.known use, _) :: _ => do
    let _ ← use.settings helpOptions
    .error 0
  | (.unknown, _) :: rest => readWords true rest
  | (.separator, _) :: _ => .error badUsage
  | (.argument name, _) :: rest => do
    let (command, more) ← readCommand name (rest.map (·.2))
    if hasMore || more then .error badUsage else .ok (.command command)

/-- The request of the arguments. -/
def readArguments (arguments : List String) : Request :=
  match (do readWords false ((← classifyAll helpOptions arguments).zip arguments)) with
  | .ok request => request
  | .error code => .exit code

end Recase.Console
