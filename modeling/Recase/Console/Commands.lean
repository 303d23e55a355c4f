import Recase.Console.Arguments
import Recase.Console.Work

/-!
# Commands

* `previewCommand`, `runCommand`, `recoverCommand`: the subcommands, each with its exit code.
* `runCommand` asks before it changes anything, unless it is told not to; the plan is shown first.
-/

namespace Recase.Console

/-- A plan with its warnings. -/
def planLines (p : Plan) : List String :=
  ["Will rename " ++ toString p.renameCount ++ " items (" ++ toString p.moves.length ++ " moves):",
    ruleLine '-' 80]
    ++ moveLines 40 20 p.moves
    ++ [ruleLine '-' 80]
    ++ (if p.warnings.isEmpty then []
      else "Warnings:" :: p.warnings.map ("  - " ++ ·.message))

/-- The conflicts of a plan. -/
def conflictLines (p : Plan) : List String :=
  "Errors:" :: p.conflicts.map ("  - " ++ ·.message)

/-- A failure, and what to do about an entry left at its temporary name. -/
def failureLines (failure : Failure) : List String :=
  ["Error: " ++ failure.message]
    ++ (match leftoverOf? failure with
      | some path => ["", "An entry was left at its temporary name: " ++ path,
        "Run 'kebabify --cli recover <directory>' to finish the rename."]
      | none => [])

/-- Prints lines and gives an exit code. -/
def finish (code : Nat) (lines : List String) : Session Nat := do
  sayAll lines
  return code

/-- Nothing is to be renamed. -/
def nothingToRename : String := "No files or directories need to be renamed"

/-- The command that shows the plan. -/
def previewCommand (directories : List String) : Session Nat := do
  let plan ← previewRoots Name.ignoredNames (directories.map .ofText)
  match ← reported Failure.isReported plan with
  | .error failure => finish 1 (failureLines failure)
  | .ok plan =>
    say ("Scanned " ++ toString plan.scanned ++ " items")
    if !plan.conflicts.isEmpty then finish 1 (conflictLines plan)
    else if plan.moves.isEmpty then finish 0 [nothingToRename]
    else finish 0 (planLines plan)

/-- The question before a run: none if the run may start, else the exit code of the end. -/
def confirmRun (o : Options) (roots : List Root) : Session (Option Nat) := do
  match ← reported Failure.isReported (← gatedPlan o roots) with
  | .error failure => return some (← finish 1 (failureLines failure))
  | .ok plan =>
    if !plan.conflicts.isEmpty then return some (← finish 1 (conflictLines plan))
    else if plan.moves.isEmpty then return some (← finish 0 [nothingToRename])
    else
      sayAll (planLines plan)
      if (← askAnswer "\nConfirm execution? (y/N): ") = "y" then return none
      else return some (← finish 0 ["Cancelled"])

/-- The run itself, with its reports and its summary. -/
def performRun (o : Options) (roots : List Root) : Session Nat := do
  match ← reported Failure.isReported (← runRoots o roots) with
  | .error failure => finish 1 (failureLines failure)
  | .ok result =>
    finish 0 (["", result.summary]
      ++ (if o.dryRun then moveLines 40 result.moves.length result.moves else []))

/-- The settled path of the file of the log. -/
def logFileAt (d : Disk) : Option String → Except Failure Path
  | none => .error .noPath
  | some given => d.resolved (Path.parse given)

/-- The command that renames and mends references. -/
def runCommand (a : RunArguments) : Session Nat := do
  let w ← world
  let logFile ← orEnd (logFileAt w.disk a.logFile)
  let o := { Options.default w.disk with
    force := a.force, dryRun := a.dryRun, logging := a.log, logFile }
  let roots := a.directories.map .ofText
  if a.dryRun || a.yes then performRun o roots
  else
    match ← confirmRun o roots with
    | some code => return code
    | none => performRun o roots

/-- Whether a recovery reports the failure. -/
def isReportedByRecovery (failure : Failure) : Bool := failure.isReported || failure.isSystem

/-- The command that completes interrupted renames. -/
def recoverCommand (directories : List String) : Session Nat := do
  match ← reported isReportedByRecovery (← recoverRoots (directories.map .ofText)) with
  | .error failure => finish 1 ["Error: " ++ failure.message]
  | .ok restored =>
    if restored.isEmpty then finish 0 ["No interrupted renames found"]
    else
      finish 0 (restoredLines restored
        ++ ["Restored " ++ toString restored.length ++ " entries"])

/-- A command. -/
def performCommand : Command → Session Nat
  | .run arguments => runCommand arguments
  | .preview directories => previewCommand directories
  | .recover directories => recoverCommand directories

end Recase.Console
