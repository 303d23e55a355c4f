import Recase.Console.Commands

/-!
# The menu

* `askDirectories`: directories typed one a line, up to an empty line or a return.
* `previewMenu`, `convertMenu`, `recoverMenu`: the three functions.
* `menu`: the choice among them, again and again.

Each turn of a loop reads a line, so the lines that are left bound the number of turns
(`askDirectoriesWithin`, `menuWithin`).
-/

namespace Recase.Console

/-- A title between rules. -/
def header (title : String) : Session Unit :=
  sayAll ["", ruleLine '=' 60, "  " ++ title, ruleLine '=' 60, ""]

/-- Waits for a line. -/
def pause (prompt : String) : Session Unit := do
  let _ ← ask prompt

/-- Waits for a line before going back to the menu. -/
def pauseToReturn : Session Unit := pause "Press Enter to return..."

/-- Waits, after an empty line, before going back to the menu. -/
def pauseAtEnd : Session Unit := pause "\nPress Enter to return..."

/-- The home directory that a tilde in front of a path stands for: one's own, or that of the user
whose name follows. -/
def homeOf (w : World) (user : String) : Except Failure String :=
  if user.isEmpty then .ok w.home
  else if user.toList.contains '\x00' then .error .embeddedNul
  else
    match w.homes.lookup user with
    | some home => .ok home
    | none => .error .noHome

/-- The path with a tilde in front replaced by a home directory. -/
def expandHome (w : World) (path : Path) : Except Failure Path :=
  match path.isRelative, path.segments with
  | true, first :: rest =>
    match first.toList with
    | '~' :: user => do
      .ok ((Path.parse (← homeOf w (String.ofList user))).join ⟨.relative, rest⟩)
    | _ => .ok path
  | _, _ => .ok path

/-- The absolute path of a typed text, and whether there is a directory. -/
def typedDirectory (w : World) (text : String) : Except Failure (Path × Bool) := do
  let path ← w.disk.resolved (← expandHome w (Path.parse text))
  match w.disk.isDirectory path with
  | .ok found => .ok (path, found)
  | .error errno => .error (.system errno path.toString none)

/-- Directories typed one a line after those `typed` already, in at most so many turns. -/
def askDirectoriesWithin (typed : List Path) : Nat → Session (List Path)
  | 0 => throw .endOfInput
  | turns + 1 => do
    let label := if typed.isEmpty then "Please enter directory path"
      else "Another directory (empty to finish)"
    let text ← askTrimmed (label ++ " (q to return): ")
    if Text.lowercase text = "q" then return []
    else if text.isEmpty then
      if typed.isEmpty then askDirectoriesWithin typed turns else return typed
    else
      let (path, found) ← orEnd (typedDirectory (← world) text)
      if found then askDirectoriesWithin (typed ++ [path]) turns
      else
        say ("Error: Directory does not exist: " ++ path.toString)
        askDirectoriesWithin typed turns

/-- Directories typed one a line; none if the user goes back. -/
def askDirectories : Session (List Path) := do
  askDirectoriesWithin [] ((← get).input.length + 1)

/-- A question answered by yes or no, no by default. -/
def askYes (question : String) : Session Bool := return (← askAnswer (question ++ " (y/N): ")) = "y"

/-- The conflicts of a plan, one a line. -/
def conflictNotes (p : Plan) : List String := p.conflicts.map ("Conflict: " ++ ·.message)

/-- The plan as the menu shows it. -/
def menuPlanLines (p : Plan) : List String :=
  ["", "Will rename " ++ toString p.renameCount ++ " items:", ruleLine '-' 70]
    ++ moveLines 35 30 p.moves ++ [ruleLine '-' 70] ++ conflictNotes p

/-- Shows the plan of typed directories. -/
def previewMenu : Session Unit := do
  header "Preview Renames"
  let directories ← askDirectories
  if directories.isEmpty then return
  sayAll ["", "Scanning..."]
  let plan ← previewRoots Name.ignoredNames (directories.map .ofPath)
  match ← reported Failure.isReported plan with
  | .error failure =>
    say ("Error: " ++ failure.message)
    pauseToReturn
  | .ok plan =>
    if plan.moves.isEmpty then
      say nothingToRename
      pauseToReturn
    else
      sayAll (menuPlanLines plan)
      pauseAtEnd

/-- What a failed run is followed by. -/
def menuFailureLines (failure : Failure) : List String :=
  ["", "Error: " ++ failure.message]
    ++ (match leftoverOf? failure with
      | some path => ["An entry was left at its temporary name: " ++ path,
        "Use 'Recover interrupted renames' to finish it."]
      | none => [])

/-- Runs over typed directories whose plan has been confirmed. -/
def convertConfirmed (o : Options) (roots : List Root) : Session Unit := do
  sayAll ["", "Executing..."]
  match ← reported Failure.isReported (← runRoots o roots) with
  | .error failure =>
    sayAll (menuFailureLines failure)
    pauseAtEnd
  | .ok result =>
    sayAll ["", result.summary]
    pauseAtEnd

/-- Shows the plan and asks before the run. -/
def convertPlanned (o : Options) (roots : List Root) (plan : Plan) : Session Unit := do
  if plan.moves.isEmpty then
    say nothingToRename
    pauseToReturn
  else
    sayAll ["", plan.summary]
    if !plan.conflicts.isEmpty then
      sayAll (conflictNotes plan)
      pauseToReturn
    else
      say ""
      if ← askYes "Confirm execution" then convertConfirmed o roots
      else
        say "Cancelled"
        pauseToReturn

/-- Converts typed directories. -/
def convertMenu : Session Unit := do
  header "Convert to kebab-case"
  let directories ← askDirectories
  if directories.isEmpty then return
  let force ← askYes "Proceed even with uncommitted git changes"
  let logging ← askYes "Write log file"
  let o := { Options.default (← world).disk with force, logging }
  let roots := directories.map Root.ofPath
  match ← reported Failure.isReported (← gatedPlan o roots) with
  | .error failure =>
    say ("Error: " ++ failure.message)
    pauseToReturn
  | .ok plan => convertPlanned o roots plan

/-- Completes interrupted renames in typed directories. -/
def recoverMenu : Session Unit := do
  header "Recover Interrupted Renames"
  let directories ← askDirectories
  if directories.isEmpty then return
  match ← reported isReportedByRecovery (← recoverRoots (directories.map .ofPath)) with
  | .error failure =>
    say ("Error: " ++ failure.message)
    pauseToReturn
  | .ok restored =>
    sayAll (if restored.isEmpty then ["No interrupted renames found"] else restoredLines restored)
    pauseAtEnd

/-- What the menu offers. -/
def menuLines : List String :=
  ["Please select function:", "", "  1. Preview renames", "  2. Convert to kebab-case",
    "  3. Recover interrupted renames", "", "  q. Exit", ""]

/-- The menu in at most so many turns. -/
def menuWithin : Nat → Session Nat
  | 0 => throw .endOfInput
  | turns + 1 => do
    header "kebabify - Kebab-case File Converter"
    sayAll menuLines
    let choice ← askAnswer "Please select (1/2/3/q): "
    if choice = "q" then finish 0 ["Goodbye!"]
    else
      if choice = "1" then previewMenu
      else if choice = "2" then convertMenu
      else if choice = "3" then recoverMenu
      else
        say "Invalid choice"
        pause "Press Enter to continue..."
      menuWithin turns

/-- The menu, until the user leaves it or the input ends. -/
def menu : Session Nat := do menuWithin ((← get).input.length + 1)

end Recase.Console
