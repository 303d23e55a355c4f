import Recase.Console.Session
import Recase.Run
import Recase.Recovery

/-!
# Work in a session

The operations of the library as steps of a session. What they change is kept also when they fail.

* `previewRoots`: the plan of roots.
* `gateRoots`: the check for uncommitted changes.
* `runRoots`: a run, each of its reports printed as a line.
* `recoverRoots`: a recovery.
-/

namespace Recase.Console

/-- The plan of roots, or the failure. -/
def previewRoots (ignored : List String) (roots : List Root) : Session (Except Failure Plan) := do
  let w ← world
  let p := preview w ignored roots
  setWorld { w with drawn := p.drawn }
  return p.plan

/-- The check for uncommitted changes. -/
def gateRoots (force : Bool) (roots : List Root) : Session (Except Failure Unit) := do
  let w ← world
  return (do ensureSafe (← standingOf w.disk w.git.repositories roots) force)

/-- The check for uncommitted changes and, if it passes, the plan. -/
def gatedPlan (o : Options) (roots : List Root) : Session (Except Failure Plan) := do
  match ← gateRoots o.force roots with
  | .error failure => return .error failure
  | .ok () => previewRoots o.ignored roots

/-- A report as a line. -/
def Report.line (r : Report) : String := "[" ++ padLeft 3 (toString r.percent) ++ "%] " ++ r.message

/-- A run with its reports printed. -/
def runRoots (o : Options) (roots : List Root) : Session (Except Failure RunResult) := do
  let outcome := run o roots (← world)
  setWorld outcome.world
  sayAll (outcome.reports.map Report.line)
  return outcome.result

/-- A recovery with the usual names ignored. -/
def recoverRoots (roots : List Root) : Session (Except Failure (List (Path × Path))) := do
  let w ← world
  let (restored, disk) := recover w.disk Name.ignoredNames roots
  setWorld { w with disk }
  return restored

/-- A failure that the caller reports, as a value; any other failure ends the session. -/
def reported {α : Type} (isExpected : Failure → Bool) (result : Except Failure α) :
    Session (Except Failure α) :=
  match result with
  | .ok a => return .ok a
  | .error failure => if isExpected failure then return .error failure else throw failure

/-- The lines of the first moves of a plan, each source padded to a width, and how many more there
are. -/
def moveLines (width limit : Nat) (moves : List Move) : List String :=
  (moves.take limit).map (fun m => "  " ++ padRight width m.source ++ " -> " ++ m.target)
    ++ (if limit < moves.length then
      ["  ... and " ++ toString (moves.length - limit) ++ " more moves"] else [])

/-- The lines of restored entries. -/
def restoredLines (restored : List (Path × Path)) : List String :=
  restored.map fun (temporary, intended) => "  " ++ temporary.toString ++ " -> " ++ intended.name

/-- The temporary path at which a failure has left an entry. -/
def leftoverOf? : Failure → Option String
  | .moveFailed failure => failure.leftover?
  | _ => none

end Recase.Console
